import Skep.Kernel.Kernel
import Skep.Content.Store
import Skep.Namespace.Documents
import Skep.Arrangement.Reads

/-!
# The world

The namespace, the content store and the arrangements, and the records that
move them, each record one part alone.
-/

/-- The slices the operations read and move. -/
structure World where
  m3 : M3State
  content : ContentStore
  m5 : M5State

inductive Record where
  | namespaceRec (r : M3Rec)
  | content (r : ContentWrite)
  | contentStretch (r : ContentStretch)
  | arrangement (r : M5Rec)

namespace World

/-- Fold one record, `seq` being the position it commits at. -/
def apply (w : World) (seq : ℕ) : Record → Outcome Empty World
  | .namespaceRec r => do
      let m3 ← w.m3.applyM3 seq r
      return { w with m3 }
  | .content r => return { w with content := w.content.applyWrite r }
  | .contentStretch r => return { w with content := w.content.applyStretch r }
  | .arrangement r => return { w with m5 := w.m5.applyM5 seq r }

instance : WorldState World := ⟨Record, apply⟩

def genesis : World := ⟨M3State.genesis, ContentStore.empty, M5State.genesis⟩

end World

namespace Record

def m5? : Record → Option M5Rec
  | arrangement r => some r
  | _ => none

def m3? : Record → Option M3Rec
  | namespaceRec r => some r
  | _ => none

def content? : Record → Option ContentRec
  | content r => some (.write r)
  | contentStretch r => some (.stretch r)
  | _ => none

/-- A record that issues content or link addresses or stores a value. -/
def MintsElement : Record → Prop
  | namespaceRec r => r.MintsElement
  | content _ => True
  | contentStretch _ => True
  | arrangement _ => False

end Record

namespace World

theorem apply_eq_ok {w w' : World} {seq : ℕ} {r : Record} (h : w.apply seq r = .ok w') :
    (∀ x, r = .namespaceRec x →
      (w.m3.applyM3 seq x : Outcome Empty M3State) = .ok w'.m3 ∧ w'.m5 = w.m5 ∧
        w'.content = w.content) ∧
    (∀ x, r = .arrangement x → w'.m3 = w.m3 ∧ w'.m5 = w.m5.applyM5 seq x ∧
      w'.content = w.content) ∧
    (r.m3? = none → w'.m3 = w.m3) ∧ (r.m5? = none → w'.m5 = w.m5) := by
  cases r with
  | namespaceRec x =>
    simp only [apply, Outcome.bind_eq_ok_iff, Outcome.pure_eq, Outcome.ok.injEq] at h
    obtain ⟨m3, hm3, rfl⟩ := h
    simp [Record.m3?, hm3]
  | content x =>
    cases h
    simp
  | contentStretch x =>
    cases h
    simp
  | arrangement x =>
    cases h
    simp [Record.m5?]

/-- The arrangements after a fold are the fold of the arrangement records. -/
theorem foldAt_m5 {w w' : World} {seq : ℕ} {recs : List Record} (h : foldAt w seq recs = .ok w') :
    w'.m5 = (recs.filterMap Record.m5?).foldl (fun s r => s.applyM5 seq r) w.m5 := by
  induction recs generalizing w with
  | nil =>
    cases h
    rfl
  | cons r recs ih =>
    obtain ⟨mid, hmid, hrest⟩ := foldAt_cons_eq_ok_iff.1 h
    obtain ⟨-, harr, -, hnone⟩ := apply_eq_ok hmid
    rw [ih hrest]
    cases r with
    | arrangement x =>
      rw [(harr x rfl).2.1]
      rfl
    | namespaceRec x => rw [hnone rfl]; rfl
    | content x => rw [hnone rfl]; rfl
    | contentStretch x => rw [hnone rfl]; rfl

/-- The namespace after a fold is the fold of the namespace records. -/
theorem foldAt_m3 {w w' : World} {seq : ℕ} {recs : List Record} (h : foldAt w seq recs = .ok w') :
    (w.m3.applyAll seq (recs.filterMap Record.m3?) : Outcome Empty M3State) = .ok w'.m3 := by
  induction recs generalizing w with
  | nil =>
    cases h
    rfl
  | cons r recs ih =>
    obtain ⟨mid, hmid, hrest⟩ := foldAt_cons_eq_ok_iff.1 h
    obtain ⟨hns, -, hnone, -⟩ := apply_eq_ok hmid
    have htail := ih hrest
    cases r with
    | namespaceRec x =>
      rw [M3State.applyAll, List.filterMap_cons_some (by rfl), List.foldlM_cons, (hns x rfl).1]
      exact htail
    | arrangement x => rwa [hnone rfl] at htail
    | content x => rwa [hnone rfl] at htail
    | contentStretch x => rwa [hnone rfl] at htail

theorem content_apply {w w' : World} {seq : ℕ} {r : Record} (h : w.apply seq r = .ok w') :
    w'.content = w.content.applyAll r.content?.toList := by
  cases r with
  | namespaceRec x => exact ((apply_eq_ok h).1 x rfl).2.2
  | content x =>
    cases h
    rfl
  | contentStretch x =>
    cases h
    rfl
  | arrangement x => exact ((apply_eq_ok h).2.1 x rfl).2.2

theorem applyAll_content_cons (s : ContentStore) (r : Record) (recs : List Record) :
    s.applyAll ((r :: recs).filterMap Record.content?) =
      (s.applyAll r.content?.toList).applyAll (recs.filterMap Record.content?) := by
  rw [List.filterMap_cons]
  cases r.content? <;> rfl

/-- The store after a fold is the fold of the content records. -/
theorem foldAt_content {w w' : World} {seq : ℕ} {recs : List Record}
    (h : foldAt w seq recs = .ok w') :
    w'.content = w.content.applyAll (recs.filterMap Record.content?) := by
  induction recs generalizing w with
  | nil =>
    cases h
    rfl
  | cons r recs ih =>
    obtain ⟨mid, hmid, hrest⟩ := foldAt_cons_eq_ok_iff.1 h
    rw [ih hrest, content_apply hmid, applyAll_content_cons]

/-- The store of a working copy is the fold of the content records staged. -/
theorem pushed_content {stg stg' : Staging World} {recs : List Record} (h : stg.Pushed recs stg') :
    stg'.working.content = stg.working.content.applyAll (recs.filterMap Record.content?) := by
  induction h with
  | nil => rfl
  | cons w hw _ ih => rw [ih, content_apply hw, applyAll_content_cons]

/-- What the mint of an element keeps: the arrangements, and every document read. -/
def ElementsOnly (w w' : World) : Prop := w'.m5 = w.m5 ∧ w.m3.DocumentsAgree w'.m3

theorem ElementsOnly.refl (w : World) : w.ElementsOnly w := ⟨rfl, .refl _⟩

theorem ElementsOnly.trans {w w' w'' : World} (h : w.ElementsOnly w') (h' : w'.ElementsOnly w'') :
    w.ElementsOnly w'' :=
  ⟨h'.1.trans h.1, h.2.trans h'.2⟩

theorem elementsOnly_apply {w w' : World} {seq : ℕ} {r : Record} (hr : r.MintsElement)
    (h : w.apply seq r = .ok w') : w.ElementsOnly w' := by
  obtain ⟨hns, -, hm3, hm5⟩ := apply_eq_ok h
  cases r with
  | namespaceRec x =>
    obtain ⟨happ, h5, -⟩ := hns x rfl
    exact ⟨h5, M3State.documentsAgree_of_mintsElement hr happ⟩
  | content x => exact ⟨hm5 rfl, hm3 rfl ▸ .refl _⟩
  | contentStretch x => exact ⟨hm5 rfl, hm3 rfl ▸ .refl _⟩
  | arrangement x => exact hr.elim

theorem elementsOnly_foldAt {w w' : World} {seq : ℕ} {recs : List Record}
    (hr : ∀ r ∈ recs, r.MintsElement) (h : foldAt w seq recs = .ok w') : w.ElementsOnly w' :=
  foldAt_rel ElementsOnly.refl ElementsOnly.trans elementsOnly_apply hr h

theorem elementsOnly_pushed {stg stg' : Staging World} {recs : List Record}
    (h : stg.Pushed recs stg') (hr : ∀ r ∈ recs, r.MintsElement) :
    stg.working.ElementsOnly stg'.working :=
  h.rel ElementsOnly.refl ElementsOnly.trans elementsOnly_apply hr

end World
