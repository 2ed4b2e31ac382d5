import Skep.Library.Paging
import Skep.Links.HomeReads

/-!
# Windows over homes

A read that finds its links home by home answers a window of them without the rest: it
passes over the homes that stand before the cursor, leaves out those the reader may not
read, and stops at the home that fills the window.
-/

abbrev Cursor := Option Address

abbrev Window := Paging.Page Address

def homeAdmitted (readable : Address → Bool) (home : Address) : Bool := readable home

/-- Whether a home stands before the home the cursor resumes in. A cursor in no document
resumes at its own place. -/
def homeBehind (home cursor : Address) : Bool :=
  match documentOf cursor with
  | some resumesIn => decide (home < resumesIn)
  | none => decide (home < cursor)

/-- A window over ascending links that a filter keeps. -/
def windowOver (candidates : List Address) (cur : Cursor) (n : ℕ) (keep : Address → Bool) : Window :=
  let batch := ((Paging.past candidates cur).filter keep).take (max n 1)
  ⟨batch, batch.getLast?.or cur, decide (batch.length < max n 1)⟩

section

variable {H : Type} {ε : Type} (home : H → Address) (links : H → Outcome ε (List Address))
  (readable : Address → Bool) (cur : Cursor) (n : ℕ)

/-- The batch of a window, filled home by home. -/
def fillHomes : List Address → List H → Outcome ε (List Address)
  | batch, [] => return batch
  | batch, candidate :: rest =>
      if cur.any fun c => homeBehind (home candidate) c then fillHomes batch rest
      else if homeAdmitted readable (home candidate) = false then fillHomes batch rest
      else do
        let share ← links candidate
        let page := windowOver share cur (n - batch.length) fun _ => true
        let batch := batch ++ page.batch
        if batch.length = n then return batch else fillHomes batch rest

/-- A window over homes. -/
def windowHomes (homes : List H) : Outcome ε Window := do
  let n := max n 1
  let batch ← fillHomes home links readable cur n [] homes
  return ⟨batch, batch.getLast?.or cur, decide (batch.length < n)⟩

theorem windowOver_all (candidates : List Address) (m : ℕ) :
    windowOver candidates cur m (fun _ => true) = Paging.page candidates cur m := by
  rw [windowOver, List.filter_true]
  rfl

variable {home links readable cur n} {share : H → List Address} {homes : List H}

theorem past_append {a b : List Address} (hasc : (a ++ b).Pairwise (· < ·)) (cur : Cursor) :
    Paging.past (a ++ b) cur = Paging.past a cur ++ Paging.past b cur := by
  obtain ⟨ha, hb, -⟩ := List.pairwise_append.1 hasc
  cases cur with
  | none => rfl
  | some c => rw [Paging.past_some hasc, Paging.past_some ha, Paging.past_some hb, List.filter_append]

/-- Filling a batch home by home takes the links of the admitted homes past the cursor, up to
the batch's room. -/
theorem fillHomes_eq (hlinks : ∀ h ∈ homes, readable (home h) = true → links h = .ok (share h))
    (hbehind : ∀ h ∈ homes, ∀ c ∈ cur, homeBehind (home h) c = true → ∀ a ∈ share h, a ≤ c)
    (hasc : ((homes.filter fun h => readable (home h)).flatMap share).Pairwise (· < ·))
    (batch : List Address) (hroom : batch.length < n) :
    fillHomes home links readable cur n batch homes = .ok (batch ++
      (Paging.past ((homes.filter fun h => readable (home h)).flatMap share) cur).take
        (n - batch.length)) := by
  induction homes generalizing batch with
  | nil =>
    have hnil : Paging.past ([] : List Address) cur = [] := by cases cur <;> rfl
    rw [fillHomes, List.filter_nil, List.flatMap_nil, hnil, List.take_nil, List.append_nil]
    rfl
  | cons h homes ih =>
    have ihrest := ih (fun h' hh => hlinks h' (List.mem_cons_of_mem _ hh))
      (fun h' hh => hbehind h' (List.mem_cons_of_mem _ hh))
    rw [fillHomes]
    by_cases hread : readable (home h) = true
    · rw [List.filter_cons_of_pos (p := fun h => readable (home h)) hread, List.flatMap_cons] at hasc ⊢
      have hrest := (List.pairwise_append.1 hasc).2.1
      have hshare := (List.pairwise_append.1 hasc).1
      rw [past_append hasc]
      by_cases hskip : (cur.any fun c => homeBehind (home h) c) = true
      · rw [if_pos hskip, ihrest hrest batch hroom]
        obtain ⟨c, hc, hb⟩ := (Option.any_eq_true _ _).1 hskip
        have hnone : Paging.past (share h) cur = [] := by
          rw [List.eq_nil_iff_forall_not_mem]
          intro a ha
          obtain ⟨hmem, hlt⟩ := (Paging.mem_past hshare).1 ha
          exact absurd (hlt c hc) (not_lt.2 (hbehind h List.mem_cons_self c hc hb a hmem))
        rw [hnone, List.nil_append]
      · have hgranted : homeAdmitted readable (home h) = true := hread
        rw [if_neg hskip, if_neg (by rw [hgranted]; decide), hlinks h List.mem_cons_self hread,
          Outcome.ok_bind, windowOver_all]
        have hpage : (Paging.page (share h) cur (n - batch.length)).batch =
            (Paging.past (share h) cur).take (n - batch.length) := by
          show (Paging.past (share h) cur).take (max (n - batch.length) 1) = _
          rw [Nat.max_eq_left (by omega)]
        simp only [hpage]
        by_cases hfull : n - batch.length ≤ (Paging.past (share h) cur).length
        · have hlen : (batch ++ (Paging.past (share h) cur).take (n - batch.length)).length = n := by
            rw [List.length_append, List.length_take, Nat.min_eq_left hfull]
            omega
          rw [if_pos hlen, List.take_append_of_le_length hfull]
          rfl
        · have hall : (Paging.past (share h) cur).take (n - batch.length) = Paging.past (share h) cur :=
            List.take_of_length_le (by omega)
          have hlen : (batch ++ Paging.past (share h) cur).length = batch.length +
              (Paging.past (share h) cur).length := List.length_append
          rw [hall, if_neg (by omega), ihrest hrest _ (by omega), List.take_append, hall, hlen,
            List.append_assoc, Nat.sub_add_eq]
    · have hgranted : homeAdmitted readable (home h) = false := by simpa [homeAdmitted] using hread
      rw [List.filter_cons_of_neg (p := fun h => readable (home h)) hread] at hasc ⊢
      rw [if_pos hgranted, ihrest hasc batch hroom]
      by_cases hskip : (cur.any fun c => homeBehind (home h) c) = true
      · rw [if_pos hskip]
      · rw [if_neg hskip]

/-- A window over homes is the page of the links of the admitted ones. -/
theorem windowHomes_eq (hlinks : ∀ h ∈ homes, readable (home h) = true → links h = .ok (share h))
    (hbehind : ∀ h ∈ homes, ∀ c ∈ cur, homeBehind (home h) c = true → ∀ a ∈ share h, a ≤ c)
    (hasc : ((homes.filter fun h => readable (home h)).flatMap share).Pairwise (· < ·)) :
    windowHomes home links readable cur n homes =
      .ok (Paging.page ((homes.filter fun h => readable (home h)).flatMap share) cur n) := by
  have hpos : 0 < max n 1 := by omega
  rw [windowHomes, fillHomes_eq hlinks hbehind hasc [] hpos]
  rfl

end

theorem documentOf_prefix {a d : Address} (h : documentOf a = some d) :
    d.level = .document ∧ d.comps <+: a.comps := by
  have hpre := documentOf_eq_some_iff.1 h
  cases hlv : a.level with
  | node => simp [Address.documentPrefix, hlv] at hpre
  | account => simp [Address.documentPrefix, hlv] at hpre
  | document =>
    rw [documentOf_of_document hlv] at h
    cases h
    exact ⟨hlv, List.prefix_refl _⟩
  | element =>
    obtain ⟨d', hd', e, he, hz, hcomps, hpre', -⟩ := Address.exists_document hlv
    rw [hpre'] at hpre
    obtain rfl : d' = d := Address.comps_inj.1 (Option.some.inj hpre)
    exact ⟨hd', 0 :: e, hcomps.symm⟩

namespace LinkStore

variable {st : LinkStore} (hs : st.Sound)

include hs

/-- The links of a home a window passes over stand at or before its cursor. -/
theorem Sound.homeBehind_le {home cursor a : Address} {l : Link} (ha : st.state.readlink a = some l)
    (hdoc : documentOf a = some home) (h : homeBehind home cursor = true) : a ≤ cursor := by
  obtain ⟨rest, hcomps⟩ := mem_linkChain.1 (hs.mem_chain ha hdoc)
  have hlv := hs.level_of_isHome ⟨a, l, ha, hdoc⟩
  rw [homeBehind] at h
  cases hcur : documentOf cursor with
  | none =>
    rw [hcur] at h
    have hparts := parts_of_lt (of_decide_eq_true h) hlv (.inr (by rw [hcur]; simp))
    exact (chain_lt_of_lt home hparts hcomps).le
  | some resumesIn =>
    rw [hcur] at h
    obtain ⟨hlv', hpre⟩ := documentOf_prefix hcur
    have hparts := parts_of_lt (of_decide_eq_true h) hlv (.inl (by rw [hlv']; decide))
    have hlt : a.tumbler < resumesIn.tumbler := chain_lt_of_lt home hparts hcomps
    refine hlt.le.trans ?_
    obtain ⟨e, he⟩ := hpre
    cases e with
    | nil =>
      rw [List.append_nil] at he
      exact le_of_eq (congrArg Address.tumbler (Address.comps_inj.1 he))
    | cons x e => exact (Tumbler.lt_of_extends he.symm).le

/-- The links of a home stand before those of a later one. -/
theorem Sound.lt_of_home_lt {home home' a a' : Address} {l l' : Link}
    (ha : st.state.readlink a = some l) (hdoc : documentOf a = some home)
    (ha' : st.state.readlink a' = some l') (hdoc' : documentOf a' = some home') (hlt : home < home') :
    a < a' :=
  (hs.mem_chain ha hdoc).2.trans (chain_lt_chain (hs.level_of_isHome ⟨a, l, ha, hdoc⟩)
    (hs.level_of_isHome ⟨a', l', ha', hdoc'⟩) hlt (hs.mem_chain ha' hdoc').1)

end LinkStore
