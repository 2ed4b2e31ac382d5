import Mathlib

/-!
# Finite maps in key order

A finite map over a linearly ordered key type, stored as its entries in
ascending key order. The representation is canonical, so two maps with the
same lookups are equal, and a walk of the entries meets the keys in order.
-/

namespace OrdMap

variable {κ ν : Type*} [LinearOrder κ]

/-- The key order of an entry list. -/
def Ascending (l : List (κ × ν)) : Prop :=
  l.Pairwise (fun x y => x.1 < y.1)

/-- Insert into an ascending entry list, replacing the entry at the same key. -/
def insertEntry (k : κ) (v : ν) : List (κ × ν) → List (κ × ν)
  | [] => [(k, v)]
  | e :: rest =>
      if k < e.1 then (k, v) :: e :: rest
      else if k = e.1 then (k, v) :: rest
      else e :: insertEntry k v rest

/-- Lookup in an entry list. -/
def getEntry (k : κ) : List (κ × ν) → Option ν
  | [] => none
  | e :: rest => if k = e.1 then some e.2 else getEntry k rest

theorem mem_insertEntry {k : κ} {v : ν} {e : κ × ν} {l : List (κ × ν)}
    (h : e ∈ insertEntry k v l) : e = (k, v) ∨ e ∈ l := by
  induction l with
  | nil => simpa [insertEntry] using h
  | cons e' rest ih =>
    rw [insertEntry] at h
    split at h
    · simpa using h
    · split at h
      · rcases List.mem_cons.1 h with h | h
        · exact .inl h
        · exact .inr (List.mem_cons_of_mem _ h)
      · rcases List.mem_cons.1 h with h | h
        · exact .inr (h ▸ List.mem_cons_self)
        · exact (ih h).imp_right (List.mem_cons_of_mem _)

theorem Ascending.insertEntry {l : List (κ × ν)} (h : Ascending l) (k : κ) (v : ν) :
    Ascending (insertEntry k v l) := by
  induction l with
  | nil => simp [OrdMap.insertEntry, Ascending]
  | cons e rest ih =>
    obtain ⟨hlt, hrest⟩ := List.pairwise_cons.1 h
    rw [OrdMap.insertEntry]
    split
    · next hk =>
      refine List.pairwise_cons.2 ⟨fun x hx => ?_, h⟩
      rcases List.mem_cons.1 hx with rfl | hx
      · exact hk
      · exact hk.trans (hlt x hx)
    · split
      · next hk => exact List.pairwise_cons.2 ⟨fun x hx => hk ▸ hlt x hx, hrest⟩
      · next hk hne =>
        refine List.pairwise_cons.2 ⟨fun x hx => ?_, ih hrest⟩
        rcases mem_insertEntry hx with rfl | hx
        · exact lt_of_le_of_ne (not_lt.1 hk) (Ne.symm hne)
        · exact hlt x hx

theorem getEntry_insertEntry (k k' : κ) (v : ν) (l : List (κ × ν)) :
    getEntry k' (insertEntry k v l) = if k' = k then some v else getEntry k' l := by
  induction l with
  | nil => simp [insertEntry, getEntry]
  | cons e rest ih =>
    rw [insertEntry]
    split
    · simp [getEntry]
    · split
      · next hk =>
        subst hk
        by_cases hk' : k' = e.1 <;> simp [getEntry, hk']
      · next hne =>
        by_cases hk' : k' = e.1
        · have : k' ≠ k := fun h => hne (h.symm.trans hk')
          simp [getEntry, hk', Ne.symm hne]
        · simp [getEntry, hk', ih]

theorem insertEntry_perm {k : κ} (v : ν) {l : List (κ × ν)} (h : getEntry k l = none) :
    (insertEntry k v l).Perm ((k, v) :: l) := by
  induction l with
  | nil => exact .refl _
  | cons e rest ih =>
    rw [getEntry] at h
    split at h
    · cases h
    · next hne =>
      rw [insertEntry, if_neg hne]
      split
      · exact .refl _
      · exact ((ih h).cons e).trans (.swap _ _ _)

theorem getEntry_eq_some_iff {l : List (κ × ν)} (h : Ascending l) {k : κ} {v : ν} :
    getEntry k l = some v ↔ (k, v) ∈ l := by
  induction l with
  | nil => simp [getEntry]
  | cons e rest ih =>
    obtain ⟨hlt, hrest⟩ := List.pairwise_cons.1 h
    rw [getEntry, List.mem_cons]
    split
    · next hk =>
      constructor
      · rintro ⟨⟩
        exact .inl (Prod.ext hk rfl)
      · rintro (hv | hv)
        · rw [← hv]
        · exact absurd (hlt _ hv) (by simp [hk])
    · next hk =>
      rw [ih hrest]
      exact ⟨.inr, fun hv => hv.resolve_left fun hv => hk (by rw [← hv])⟩

end OrdMap

/-- A finite map whose entries stand in ascending key order. -/
structure OrdMap (κ ν : Type*) [LinearOrder κ] where
  entries : List (κ × ν)
  ascending : OrdMap.Ascending entries

namespace OrdMap

variable {κ ν : Type*} [LinearOrder κ]

instance [DecidableEq ν] : DecidableEq (OrdMap κ ν) := fun m m' =>
  decidable_of_iff (m.entries = m'.entries)
    ⟨fun h => by cases m; cases m'; cases h; rfl, fun h => h ▸ rfl⟩

/-- The map with no entry. -/
def empty : OrdMap κ ν := ⟨[], List.Pairwise.nil⟩

/-- The value at `k`. -/
def get (m : OrdMap κ ν) (k : κ) : Option ν := getEntry k m.entries

/-- The map with the value at `k` set to `v`. -/
def insert (m : OrdMap κ ν) (k : κ) (v : ν) : OrdMap κ ν :=
  ⟨insertEntry k v m.entries, m.ascending.insertEntry k v⟩

/-- The map with no value at `k`. -/
def erase (m : OrdMap κ ν) (k : κ) : OrdMap κ ν :=
  ⟨m.entries.filter fun e => decide (e.1 ≠ k), m.ascending.filter _⟩

/-- Whether `k` has an entry. -/
def contains (m : OrdMap κ ν) (k : κ) : Bool := (m.get k).isSome

/-- The entry with the greatest key at or below `k`. -/
def atOrBelow (m : OrdMap κ ν) (k : κ) : Option (κ × ν) :=
  (m.entries.filter (fun e => decide (e.1 ≤ k))).getLast?

/-- The entries at or above `k`, in key order. -/
def above (m : OrdMap κ ν) (k : κ) : List (κ × ν) :=
  m.entries.filter (fun e => decide (k ≤ e.1))

@[simp] theorem get_empty (k : κ) : (empty : OrdMap κ ν).get k = none := rfl

@[simp] theorem entries_empty : (empty : OrdMap κ ν).entries = [] := rfl

theorem get_insert (m : OrdMap κ ν) (k k' : κ) (v : ν) :
    (m.insert k v).get k' = if k' = k then some v else m.get k' :=
  getEntry_insertEntry k k' v m.entries

@[simp] theorem get_insert_self (m : OrdMap κ ν) (k : κ) (v : ν) :
    (m.insert k v).get k = some v := by
  rw [get_insert, if_pos rfl]

theorem get_insert_of_ne (m : OrdMap κ ν) {k k' : κ} (v : ν) (h : k' ≠ k) :
    (m.insert k v).get k' = m.get k' := by
  rw [get_insert, if_neg h]

theorem contains_iff {m : OrdMap κ ν} {k : κ} : m.contains k = true ↔ ∃ v, m.get k = some v :=
  Option.isSome_iff_exists

theorem get_eq_some_iff {m : OrdMap κ ν} {k : κ} {v : ν} :
    m.get k = some v ↔ (k, v) ∈ m.entries :=
  getEntry_eq_some_iff m.ascending

theorem get_erase (m : OrdMap κ ν) (k k' : κ) :
    (m.erase k).get k' = if k' = k then none else m.get k' := by
  apply Option.ext
  intro v
  rw [get_eq_some_iff, erase, List.mem_filter]
  by_cases hk : k' = k
  · simp [hk]
  · simp [hk, get_eq_some_iff]

theorem mem_insert_iff {m : OrdMap κ ν} {k : κ} {v : ν} {e : κ × ν} :
    e ∈ (m.insert k v).entries ↔ e = (k, v) ∨ (e ∈ m.entries ∧ e.1 ≠ k) := by
  obtain ⟨k', v'⟩ := e
  rw [← get_eq_some_iff, get_insert]
  split
  · next h => simp [h, eq_comm]
  · next h => simp [h, get_eq_some_iff]

theorem insert_entries_perm {m : OrdMap κ ν} {k : κ} (v : ν) (h : m.get k = none) :
    (m.insert k v).entries.Perm ((k, v) :: m.entries) := insertEntry_perm v h

/-- Ascending lists with the same entries are one list. -/
theorem Ascending.eq_of_mem {l l' : List (κ × ν)} (hl : Ascending l) (hl' : Ascending l')
    (h : ∀ e, e ∈ l ↔ e ∈ l') : l = l' := by
  have hnodup : ∀ {l : List (κ × ν)}, Ascending l → l.Nodup := by
    intro l hl
    refine List.Pairwise.imp ?_ hl
    rintro a b hab rfl
    exact lt_irrefl _ hab
  have hperm : l.Perm l' := (List.perm_ext_iff_of_nodup (hnodup hl) (hnodup hl')).2 h
  exact hperm.eq_of_pairwise (fun a b _ _ hab hba => absurd hab (not_lt.2 hba.le)) hl hl'

theorem ext_get {m m' : OrdMap κ ν} (h : ∀ k, m.get k = m'.get k) : m = m' := by
  have heq : m.entries = m'.entries := m.ascending.eq_of_mem m'.ascending fun ⟨k, v⟩ => by
    rw [← get_eq_some_iff, ← get_eq_some_iff, h]
  cases m
  cases m'
  cases heq
  rfl

theorem keys_ascending (m : OrdMap κ ν) : (m.entries.map Prod.fst).Pairwise (· < ·) :=
  List.pairwise_map.2 m.ascending

theorem atOrBelow_mem {m : OrdMap κ ν} {k : κ} {e : κ × ν} (h : m.atOrBelow k = some e) :
    e ∈ m.entries ∧ e.1 ≤ k := by
  have := List.mem_of_getLast? h
  simpa using this

private theorem getLast?_ge {l : List (κ × ν)} (hl : Ascending l) {e x : κ × ν}
    (h : l.getLast? = some e) (hx : x ∈ l) : x.1 ≤ e.1 := by
  obtain ⟨l', rfl⟩ := List.getLast?_eq_some_iff.1 h
  rcases List.mem_append.1 hx with hx | hx
  · exact ((List.pairwise_append.1 hl).2.2 x hx e (by simp)).le
  · rw [List.mem_singleton.1 hx]

/-- The entry found at or below `k` is the greatest one there. -/
theorem atOrBelow_eq_some_iff {m : OrdMap κ ν} {k : κ} {e : κ × ν} :
    m.atOrBelow k = some e ↔
      e ∈ m.entries ∧ e.1 ≤ k ∧ ∀ x ∈ m.entries, x.1 ≤ k → x.1 ≤ e.1 := by
  have hasc : Ascending (m.entries.filter (fun e => decide (e.1 ≤ k))) :=
    m.ascending.filter _
  constructor
  · intro h
    obtain ⟨hmem, hle⟩ := atOrBelow_mem h
    exact ⟨hmem, hle, fun x hx hxk => getLast?_ge hasc h (by simp [hx, hxk])⟩
  · rintro ⟨hmem, hle, hmax⟩
    have hin : e ∈ m.entries.filter (fun e => decide (e.1 ≤ k)) := by simp [hmem, hle]
    obtain ⟨e', he'⟩ : ∃ e', m.atOrBelow k = some e' :=
      Option.ne_none_iff_exists'.1 fun hn =>
        List.ne_nil_of_mem hin (List.getLast?_eq_none_iff.1 hn)
    obtain ⟨hmem', hle'⟩ := atOrBelow_mem he'
    have hkey : e.1 = e'.1 := le_antisymm (getLast?_ge hasc he' hin) (hmax e' hmem' hle')
    have hval : m.get e.1 = some e'.2 := get_eq_some_iff.2 (hkey ▸ hmem')
    have : some e.2 = some e'.2 := (get_eq_some_iff.2 hmem).symm.trans hval
    rw [he', ← Prod.ext hkey (Option.some.inj this)]

theorem atOrBelow_eq_none_iff {m : OrdMap κ ν} {k : κ} :
    m.atOrBelow k = none ↔ ∀ x ∈ m.entries, k < x.1 := by
  simp [atOrBelow]

theorem mem_above {m : OrdMap κ ν} {k : κ} {e : κ × ν} :
    e ∈ m.above k ↔ e ∈ m.entries ∧ k ≤ e.1 := by
  simp [above]

theorem above_ascending (m : OrdMap κ ν) (k : κ) : Ascending (m.above k) :=
  m.ascending.filter _

end OrdMap
