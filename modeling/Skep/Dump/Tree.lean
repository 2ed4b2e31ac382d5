import Mathlib.Data.Nat.Digits.Defs
import Skep.Registry.OneSpelling

/-!
# The tree of a dump

A dump is a tree before it is a text. The filter walks it by string keys, and recovers the
addresses it judges from the two forms that the builders write them in: a store's own
serialized form, and the dotted text.
-/

namespace Dump

/-- The shape that a value serializes as. -/
inductive SerdeTree where
  | unit
  | bool (b : Bool)
  | i64 (v : ℤ)
  | u64 (v : ℕ)
  | i128 (v : ℤ)
  | u128 (v : ℕ)
  | f64Bits (bits : ℕ)
  | char (ch : Char)
  | str (s : String)
  | bytes (bytes : List UInt8)
  | null
  | opt (inner : SerdeTree)
  | seq (items : List SerdeTree)
  | map (entries : List (SerdeTree × SerdeTree))
  | named (name : String) (inner : SerdeTree)

def key (s : String) : SerdeTree := .str s

def isKey (name : String) : SerdeTree → Bool
  | .str s => s == name
  | _ => false

/-- Change the value at the first entry of a name. -/
def atFirst (name : String) (f : SerdeTree → SerdeTree) :
    List (SerdeTree × SerdeTree) → List (SerdeTree × SerdeTree)
  | [] => []
  | (k, v) :: entries => if isKey name k then (k, f v) :: entries else (k, v) :: atFirst name f entries

/-- Change the entry at a path, a chain of string keys through nested maps. -/
def updateAt : List String → (SerdeTree → SerdeTree) → SerdeTree → SerdeTree
  | [], f, tree => f tree
  | name :: rest, f, .map entries => .map (atFirst name (updateAt rest f) entries)
  | _ :: _, _, tree => tree

def retainKeys (keep : SerdeTree → Bool) : SerdeTree → SerdeTree
  | .map entries => .map (entries.filter fun e => keep e.1)
  | tree => tree

def retainItems (keep : SerdeTree → Bool) : SerdeTree → SerdeTree
  | .seq items => .seq (items.filter keep)
  | tree => tree

/-- Keep the entries of the map at a path whose keys are admitted. -/
def retainMap (path : List String) (keep : SerdeTree → Bool) : SerdeTree → SerdeTree :=
  updateAt path (retainKeys keep)

/-- Keep the items of the sequence at a path that are admitted. -/
def retainSeq (path : List String) (keep : SerdeTree → Bool) : SerdeTree → SerdeTree :=
  updateAt path (retainItems keep)

/-- A number as its 32-bit digits, zero having none. -/
def natTree (n : ℕ) : SerdeTree := .seq ((Nat.digits (2 ^ 32) n).map .u64)

def tumblerTree (t : Tumbler) : SerdeTree := .seq (t.comps.map natTree)

/-- An address serializes as its tumbler. -/
def addressTree (a : Address) : SerdeTree := tumblerTree a.tumbler

def digitOf : SerdeTree → Option ℕ
  | .u64 d => if d < 2 ^ 32 then some d else none
  | _ => none

def natOfTree : SerdeTree → Option ℕ
  | .seq digits => (digits.mapM digitOf).map (Nat.ofDigits (2 ^ 32))
  | _ => none

/-- The address of some components. -/
def addressOfComps (comps : List ℕ) : Option Address :=
  if h : comps = [] then none else (validate ⟨comps, h⟩).toOption

/-- The address that a store's own serialized form names. -/
def serdeFormAddress : SerdeTree → Option Address
  | .seq comps => (comps.mapM natOfTree).bind addressOfComps
  | _ => none

/-- An address as a dump's own builders render it. -/
def dotted (a : Address) : SerdeTree := .str (Registry.render a)

section

variable (natOf : String → Option ℕ)

/-- The address that a dotted text names. -/
def dottedAddress : SerdeTree → Option Address
  | .str s => ((s.toList.splitOn '.').mapM fun c => natOf (String.ofList c)).bind addressOfComps
  | _ => none

/-- Reduce an entry of an adjacency map. It leaves where its key does, or its sequence empties. -/
def retainPair (keepKey : Address → Bool) (keepPair : Address → Address → Bool) (e : SerdeTree × SerdeTree) :
    Option (SerdeTree × SerdeTree) :=
  match (dottedAddress natOf e.1).filter keepKey with
  | none => none
  | some k =>
      match e.2 with
      | .seq items =>
          let items := items.filter fun item => (dottedAddress natOf item).any (keepPair k)
          if items.isEmpty then none else some (e.1, .seq items)
      | value => some (e.1, value)

def retainPairs (keepKey : Address → Bool) (keepPair : Address → Address → Bool) : SerdeTree → SerdeTree
  | .map entries => .map (entries.filterMap (retainPair natOf keepKey keepPair))
  | tree => tree

/-- Keep the pairs of the adjacency map at a path that both predicates admit. -/
def retainMapOfSeqs (path : List String) (keepKey : Address → Bool) (keepPair : Address → Address → Bool) :
    SerdeTree → SerdeTree :=
  updateAt path (retainPairs natOf keepKey keepPair)

end

theorem addressOfComps_comps (a : Address) : addressOfComps a.tumbler.comps = some a := by
  rw [addressOfComps, dif_neg a.tumbler.nonempty, Outcome.toOption_eq_some_iff, validate_eq_ok_iff]

theorem natOfTree_natTree (n : ℕ) : natOfTree (natTree n) = some n := by
  have hdigits : ∀ digits : List ℕ, (∀ d ∈ digits, d < 2 ^ 32) →
      (digits.map SerdeTree.u64).mapM digitOf = some digits := by
    intro digits hlt
    induction digits with
    | nil => rfl
    | cons d digits ih =>
      rw [List.map_cons, List.mapM_cons, digitOf, if_pos (hlt d List.mem_cons_self),
        ih fun d hd => hlt d (List.mem_cons_of_mem _ hd)]
      rfl
  rw [natTree, natOfTree, hdigits _ fun d hd => Nat.digits_lt_base (by norm_num) hd, Option.map_some,
    Nat.ofDigits_digits]

@[simp] theorem serdeFormAddress_addressTree (a : Address) : serdeFormAddress (addressTree a) = some a := by
  have hcomps : ∀ comps : List ℕ, (comps.map natTree).mapM natOfTree = some comps := by
    intro comps
    induction comps with
    | nil => rfl
    | cons n comps ih =>
      rw [List.map_cons, List.mapM_cons, natOfTree_natTree, ih]
      rfl
  rw [addressTree, tumblerTree, serdeFormAddress, hcomps, Option.bind_some, addressOfComps_comps]

/-- Where decimal naturals are read back, so is a dotted address. -/
theorem dottedAddress_dotted {natOf : String → Option ℕ} (hnat : ∀ n : ℕ, natOf n.repr = some n)
    (a : Address) : dottedAddress natOf (dotted a) = some a := by
  rw [dotted, dottedAddress, Registry.mapM_natOf_render hnat, Option.bind_some, addressOfComps_comps]

variable {name other : String} {f : SerdeTree → SerdeTree} {value : SerdeTree}
  {entries : List (SerdeTree × SerdeTree)}

@[simp] theorem updateAt_nil (tree : SerdeTree) : updateAt [] f tree = f tree := by
  cases tree <;> rfl

theorem updateAt_cons (rest : List String) :
    updateAt (name :: rest) f (.map entries) = .map (atFirst name (updateAt rest f) entries) := rfl

theorem atFirst_here : atFirst name f ((key name, value) :: entries) = (key name, f value) :: entries := by
  rw [atFirst, if_pos]
  exact beq_self_eq_true name

theorem atFirst_past (h : other ≠ name) :
    atFirst name f ((key other, value) :: entries) = (key other, value) :: atFirst name f entries := by
  rw [atFirst, if_neg]
  exact fun heq => h (beq_iff_eq.1 heq)

end Dump
