import Skep.Namespace.State

/-!
# Chains of versions

A document's trunk is its first document component; its versions extend it. The
trunk's newest version is the head of the chain: what an unnamed read resolves
to and where a declared deposit lands.
-/

namespace Address

/-- How many components the trunk of an address keeps. -/
def keptByTrunk (a : Address) : ℕ :=
  match a.level, a.documentField with
  | .document, some field => a.tumbler.len - (field.length - 1)
  | _, _ => a.tumbler.len

/-- A document is its account's components, a separator and the document field. -/
theorem exists_account {a : Address} (h : a.level = .document) :
    ∃ p : Address, p.level = .account ∧ ∃ x e, x ≠ 0 ∧ 0 ∉ e ∧ a.comps = p.comps ++ 0 :: x :: e ∧
      a.documentField = some (x :: e) := by
  obtain ⟨p, e, he, hz, hcomps⟩ := exists_lastField (a := a) (by simp [h])
  have hp := admits_beforeLast he hz hcomps (show a.level.zeros = Level.account.zeros + 1 by rw [h]; rfl)
  have hcount : p.comps.count 0 + 1 = 2 := congrArg (· + 1) (admits_iff.1 hp).2.2.2
  obtain ⟨x, e, rfl⟩ := List.exists_cons_of_ne_nil he
  rw [List.mem_cons, not_or] at hz
  refine ⟨⟨p, .account, hp⟩, rfl, x, e, Ne.symm hz.1, hz.2, hcomps, ?_⟩
  rw [documentField, ← hcount, field_eq hcomps]
  rw [List.mem_cons, not_or]
  exact hz

theorem keptByTrunk_of_parts {a p : Address} {x : ℕ} {e : List ℕ} (h : a.level = .document)
    (hf : a.documentField = some (x :: e)) (hcomps : a.comps = p.comps ++ 0 :: x :: e) :
    a.keptByTrunk = p.comps.length + 2 := by
  have hlen : a.tumbler.len = p.comps.length + 2 + e.length := by
    rw [Tumbler.len, ← comps, hcomps]
    simp
    omega
  simp only [keptByTrunk, h, hf, hlen, List.length_cons, Nat.add_sub_cancel]

theorem keptByTrunk_pos (a : Address) : 0 < a.keptByTrunk := by
  by_cases h : a.level = .document
  · obtain ⟨p, -, x, e, -, -, hcomps, hf⟩ := exists_account h
    rw [keptByTrunk_of_parts h hf hcomps]
    omega
  · have := a.tumbler.len_pos
    cases hlv : a.level <;> simp_all [keptByTrunk]

/-- A document cut back to its first document component is an address. -/
theorem admits_trunk (a : Address) (h : a.comps.take a.keptByTrunk ≠ []) :
    (t4Scan ⟨a.comps.take a.keptByTrunk, h⟩).admittedLevel = some a.level := by
  by_cases hlv : a.level = .document
  · obtain ⟨p, -, x, e, hx, hz, hcomps, hf⟩ := exists_account hlv
    have hkept := keptByTrunk_of_parts hlv hf hcomps
    have htake : a.comps.take a.keptByTrunk = p.comps ++ [0, x] := by
      rw [hkept, hcomps, List.take_length_add_append]
      simp
    refine (admits_same (t := a.tumbler) hz ?_ ?_).1 a.admitted
    · show a.comps = a.comps.take a.keptByTrunk ++ e
      rw [htake, hcomps]
      simp
    · show (a.comps.take a.keptByTrunk).getLast? ≠ some 0
      rw [htake]
      simpa using hx
  · have hkept : a.comps.take a.keptByTrunk = a.comps := by
      have : a.keptByTrunk = a.comps.length := by
        cases hl : a.level <;> simp_all [keptByTrunk] <;> rfl
      rw [this, List.take_length]
    simp only [hkept]
    exact a.admitted

end Address

/-- The trunk of a document: its first document component. Any other address is
its own trunk. -/
def trunkOf (a : Address) : Address :=
  have h : a.comps.take a.keptByTrunk ≠ [] := by
    have := a.keptByTrunk_pos
    simp [a.comps_ne_nil]
    omega
  ⟨⟨a.comps.take a.keptByTrunk, h⟩, a.level, a.admits_trunk h⟩

@[simp] theorem level_trunkOf (a : Address) : (trunkOf a).level = a.level := rfl

theorem comps_trunkOf (a : Address) : (trunkOf a).comps = a.comps.take a.keptByTrunk := rfl

theorem trunkOf_of_parts {a p : Address} {x : ℕ} {e : List ℕ} (h : a.level = .document)
    (hp : p.level = .account) (hcomps : a.comps = p.comps ++ 0 :: x :: e) :
    (trunkOf a).comps = p.comps ++ [0, x] := by
  obtain ⟨p', hp', x', e', -, hz, hcomps', hf⟩ := Address.exists_account h
  have hfield : a.documentField = some (x :: e) := by
    have hcount : p.comps.count 0 + 1 = 2 := by rw [p.count_zero, hp]; rfl
    have hzero : 0 ∉ x :: e := by
      intro hmem
      have hpos := List.count_pos_iff.2 hmem
      have htotal := a.count_zero
      rw [hcomps, List.count_append, List.count_cons_self, h, p.count_zero, hp] at htotal
      simp only [Level.zeros] at htotal
      omega
    rw [Address.documentField, ← hcount, Address.field_eq hcomps hzero]
  rw [comps_trunkOf, Address.keptByTrunk_of_parts h hfield hcomps, hcomps,
    List.take_length_add_append]
  simp

@[simp] theorem trunkOf_trunkOf (a : Address) : trunkOf (trunkOf a) = trunkOf a := by
  by_cases h : a.level = .document
  · obtain ⟨p, hp, x, e, -, -, hcomps, -⟩ := Address.exists_account h
    have htrunk := trunkOf_of_parts h hp hcomps
    exact Address.ext ((trunkOf_of_parts (a := trunkOf a) h hp (e := []) htrunk).trans htrunk.symm)
  · refine Address.ext ?_
    show (trunkOf (trunkOf a)).comps = _
    have hkept : (trunkOf a).keptByTrunk = (trunkOf a).comps.length := by
      cases hl : a.level <;> simp_all [Address.keptByTrunk] <;> rfl
    rw [comps_trunkOf, hkept, List.take_length]
    rfl

/-- A version stands at its source's level and has its source's trunk. -/
theorem trunkOf_childOf {a s : Address} {n : ℕ} (hs : s.level = .document)
    (h : a.ChildOf (versionNs s) n) : a.level = .document ∧ trunkOf a = trunkOf s ∧ trunkOf a ≠ a := by
  have hlv : a.level = .document := by
    have hz := h.zeros_eq
    rw [hs] at hz
    exact Level.zeros_injective hz
  obtain ⟨p, hp, x, e, -, -, hcomps, -⟩ := Address.exists_account hs
  have hchild : a.comps = p.comps ++ 0 :: x :: (e ++ [n]) := by
    rw [h, versionNs, Generator.sep, ← Address.comps, hcomps]
    simp
  have ha := trunkOf_of_parts hlv hp hchild
  refine ⟨hlv, Address.ext (ha.trans (trunkOf_of_parts hs hp hcomps).symm), fun heq => ?_⟩
  have hlen := congrArg (List.length ∘ Address.comps) heq
  simp [ha, hchild] at hlen

theorem trunkOf_childOf_account {a p : Address} {n : ℕ} (hp : p.level = .account)
    (h : a.ChildOf (documentNs p) n) : a.level = .document ∧ trunkOf a = a := by
  have hlv : a.level = .document := by
    have hz := h.zeros_eq
    rw [hp] at hz
    exact Level.zeros_injective hz
  have hcomps : a.comps = p.comps ++ 0 :: n :: [] := by
    rw [h, documentNs, Generator.sep, ← Address.comps]
    simp
  exact ⟨hlv, Address.ext ((trunkOf_of_parts hlv hp hcomps).trans hcomps.symm)⟩

/-- The newest version of a document's trunk. -/
def trunkHead (m3 : M3State) (doc : Address) : Option Address := m3.latestVersion (trunkOf doc)

/-- The trunk's first version, where it has any. -/
def birthVersion (m3 : M3State) (doc : Address) : Option Address :=
  (trunkHead m3 doc).bind fun _ => firstVersionAddress (trunkOf doc)

/-- Whether a document is its trunk's first version. -/
def isBirthVersion (doc : Address) : Bool :=
  trunkOf doc != doc && firstVersionAddress (trunkOf doc) == some doc

/-- Whether a document's trunk is published. -/
def publishedTarget (m3 : M3State) (doc : Address) : Bool := m3.published (trunkOf doc)

/-- What an unnamed read of a document resolves to. -/
def readingSurface (m3 : M3State) (doc : Address) : Address :=
  if trunkOf doc ≠ doc then doc
  else if publishedTarget m3 doc = false then doc
  else (trunkHead m3 doc).getD doc

/-- Where a declared deposit into a document lands. -/
def depositSurface (m3 : M3State) (doc : Address) : Address :=
  if publishedTarget m3 doc = false then doc
  else (trunkHead m3 doc).getD (trunkOf doc)
