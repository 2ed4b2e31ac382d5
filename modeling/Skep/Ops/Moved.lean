import Skep.Ops.Effect
import Skep.Arrangement.Containment

/-!
# What an effect does to the documents

What a commit does to the documents is said once, of any effect: which contents
it may move and how, which links it seats, which birth extents it notes and
which bases it records. The invariants of a world follow.
-/

namespace World

/-- A base a draft may record: a registered document of a published chain, no
more of it than it holds. -/
structure Publishable (w : World) (b : DraftBase) : Prop where
  registered : w.m3.isRegisteredDocument b.base = true
  published : publishedTarget w.m3 b.base = true
  extent : b.extent ≤ w.m5.contentCount b.base

/-- How the content of one document may move. -/
inductive ContentMoved (w w' : World) (d : Address) : Prop
  | kept (h : w'.m5.contentList d = w.m5.contentList d)
  | edited (hdoc : w.m3.isRegisteredDocument d = true) (h : publishedTarget w.m3 d = false)
  | deposited (more : List Address) (hdoc : w.m3.isRegisteredDocument d = true)
      (hsurface : depositSurface w.m3 d = d)
      (h : (w'.m5.contentList d).den = (w.m5.contentList d).den ++ more)
  | minted (hnew : w.m3.isRegisteredDocument d = false)
      (hdoc : w'.m3.isRegisteredDocument d = true)

/-- How the birth extent of one document may move. -/
inductive BirthMoved (w w' : World) (m : Address) : Prop
  | kept (h : w'.m5.birthExtent m = w.m5.birthExtent m)
  | noted (hnew : w.m3.isRegisteredDocument m = false)
      (hdoc : w'.m3.isRegisteredDocument m = true) (hpub : publishedTarget w'.m3 m = true)
      (h : w'.m5.birthExtent m = some (w'.m5.contentCount m))

/-- What an effect may do to the documents. -/
structure Moved (w w' : World) : Prop where
  m3 : w'.m3.Sound
  grows : w.m3.Grows w'.m3
  values : ∀ t b, w.content.bytesAt t = some b → w'.content.bytesAt t = some b
  supplied : ∀ d x, w'.m5.Arranges d x →
    (∃ b, w'.content.bytesAt x.tumbler = some b) ∨ ∃ d', w.m5.Arranges d' x
  content : ∀ d, ContentMoved w w' d
  links : ∀ d, w'.m5.linkList d = w.m5.linkList d ∨ w'.m3.isRegisteredDocument d = true ∧
    (w.m5.linkList d).den <+: (w'.m5.linkList d).den
  birth : ∀ m, BirthMoved w w' m
  base : ∀ d b, w'.m5.draftBase d = some b → w.Publishable b ∨ w'.Publishable b

/-- The invariants of a world. -/
structure Sound (w : World) : Prop where
  m3 : w.m3.Sound
  registered : ∀ d, w.m3.isRegisteredDocument d = false → (w.m5.contentList d).den = []
  unlinked : ∀ d, w.m3.isRegisteredDocument d = false → (w.m5.linkList d).den = []
  stored : ∀ d x, w.m5.Arranges d x → ∃ b, w.content.bytesAt x.tumbler = some b
  birth : ∀ m n, w.m5.birthExtent m = some n → w.m3.isRegisteredDocument m = true ∧
    publishedTarget w.m3 m = true ∧ n ≤ w.m5.contentCount m
  base : ∀ d b, w.m5.draftBase d = some b → w.Publishable b

theorem contentCount_eq (w : World) (d : Address) :
    w.m5.contentCount d = (w.m5.contentList d).den.length := (RunList.length_den _).symm

/-- What a published document arranges it arranges ever after, position by position. -/
theorem Moved.den_le {w w' : World} (h : w.Moved w') (hw : w.Sound) {d : Address}
    (hpub : publishedTarget w'.m3 d = true) :
    (w.m5.contentList d).den <+: (w'.m5.contentList d).den := by
  cases hreg : w.m3.isRegisteredDocument d with
  | false =>
    rw [hw.registered d hreg]
    exact List.nil_prefix
  | true =>
    cases h.content d with
    | kept h => rw [h]
    | edited hdoc hprivate =>
      rw [h.grows.publishedTarget_eq hw.m3 hdoc, hprivate] at hpub
      cases hpub
    | deposited more hdoc hsurface h =>
      rw [h]
      exact List.prefix_append _ _
    | minted hnew hdoc =>
      rw [hreg] at hnew
      cases hnew

theorem Moved.count_le {w w' : World} (h : w.Moved w') (hw : w.Sound) {d : Address}
    (hpub : publishedTarget w'.m3 d = true) : w.m5.contentCount d ≤ w'.m5.contentCount d := by
  rw [contentCount_eq, contentCount_eq]
  exact (h.den_le hw hpub).length_le

theorem Publishable.moved {w w' : World} {b : DraftBase} (hb : w.Publishable b) (hw : w.Sound)
    (h : w.Moved w') : w'.Publishable b := by
  have hpub : publishedTarget w'.m3 b.base = true := by
    rw [h.grows.publishedTarget_eq hw.m3 hb.registered, hb.published]
  exact ⟨h.grows.registered _ hb.registered, hpub, hb.extent.trans (h.count_le hw hpub)⟩

theorem Sound.step {w w' : World} (hw : w.Sound) (h : w.Moved w') : w'.Sound := by
  have hold : ∀ d, w'.m3.isRegisteredDocument d = false → w.m3.isRegisteredDocument d = false := by
    intro d hd
    rw [← Bool.not_eq_true]
    intro hreg
    rw [h.grows.registered d hreg] at hd
    cases hd
  refine ⟨h.m3, fun d hd => ?_, fun d hd => ?_, fun d x hx => ?_, fun m n hm => ?_, fun d b hb => ?_⟩
  · have hold := hold d hd
    cases h.content d with
    | kept h => rw [h, hw.registered d hold]
    | edited hdoc => rw [hold] at hdoc; cases hdoc
    | deposited _ hdoc => rw [hold] at hdoc; cases hdoc
    | minted _ hdoc => rw [hd] at hdoc; cases hdoc
  · rcases h.links d with hkept | ⟨hdoc, -⟩
    · rw [hkept, hw.unlinked d (hold d hd)]
    · rw [hd] at hdoc
      cases hdoc
  · rcases h.supplied d x hx with hb | ⟨d', hx⟩
    · exact hb
    · obtain ⟨b, hb⟩ := hw.stored d' x hx
      exact ⟨b, h.values _ _ hb⟩
  · cases h.birth m with
    | kept hkept =>
      rw [hkept] at hm
      obtain ⟨hreg, hpub, hle⟩ := hw.birth m n hm
      have hpub' : publishedTarget w'.m3 m = true := by
        rw [h.grows.publishedTarget_eq hw.m3 hreg, hpub]
      exact ⟨h.grows.registered _ hreg, hpub', hle.trans (h.count_le hw hpub')⟩
    | noted hnew hdoc hpub hnoted =>
      rw [hnoted, Option.some.injEq] at hm
      exact ⟨hdoc, hpub, hm.ge⟩
  · exact (h.base d b hb).elim (fun hb => hb.moved hw h) id

theorem sound_genesis : genesis.Sound := by
  refine ⟨M3State.sound_genesis, fun d _ => rfl, fun d _ => rfl, fun d x hx => ?_, fun m n hm => ?_, fun d b hb => ?_⟩
  · cases hx
  · cases hm
  · cases hb

end World

-- What the parts of an effect do

namespace World

/-- Arrangement records move the arrangements alone. -/
theorem foldAt_arrangement {w w' : World} {seq : ℕ} {recs : List M5Rec}
    (h : foldAt w seq (recs.map Record.arrangement) = .ok w') :
    w'.m3 = w.m3 ∧ w'.m5 = recs.foldl (fun s r => s.applyM5 seq r) w.m5 := by
  have hm5 := foldAt_m5 h
  have hm3 := foldAt_m3 h
  have hsome : (recs.map Record.arrangement).filterMap Record.m5? = recs := by
    rw [List.filterMap_map]
    exact (List.filterMap_congr fun _ _ => rfl).trans List.filterMap_some
  have hnone : (recs.map Record.arrangement).filterMap Record.m3? = [] := by
    rw [List.filterMap_map]
    exact List.filterMap_eq_nil_iff.2 fun _ _ => rfl
  rw [hsome] at hm5
  rw [hnone] at hm3
  exact ⟨(Outcome.ok.inj hm3).symm, hm5⟩

theorem foldAt_elements {w w' : World} {seq : ℕ} {elems : List Record} {recs : List M5Rec}
    (helems : ∀ r ∈ elems, r.MintsElement)
    (h : foldAt w seq (elems ++ recs.map Record.arrangement) = .ok w') :
    w.m3.DocumentsAgree w'.m3 ∧ w'.m5 = recs.foldl (fun s r => s.applyM5 seq r) w.m5 := by
  obtain ⟨mid, hmid, hrest⟩ := foldAt_append_eq_ok_iff.1 h
  obtain ⟨hm5, hm3⟩ := elementsOnly_foldAt helems hmid
  obtain ⟨hm3', hm5'⟩ := foldAt_arrangement hrest
  rw [hm3', hm5', hm5]
  exact ⟨hm3, rfl⟩

/-- Elements, then an allocation, then arrangement records. -/
theorem foldAt_mint {w w' : World} {seq : ℕ} {elems : List Record} {new : Address} {pub : Bool}
    {recs : List M5Rec} (helems : ∀ r ∈ elems, r.MintsElement)
    (h : foldAt w seq (elems ++ .namespaceRec (.allocate new pub) ::
      recs.map Record.arrangement) = .ok w') :
    ∃ mid : M3State, w.m3.DocumentsAgree mid ∧
      (mid.applyM3 seq (.allocate new pub) : Outcome Empty M3State) = .ok w'.m3 ∧
      w'.m5 = recs.foldl (fun s r => s.applyM5 seq r) w.m5 := by
  obtain ⟨mid, hmid, hrest⟩ := foldAt_append_eq_ok_iff.1 h
  obtain ⟨mint, hmint, hrest⟩ := foldAt_cons_eq_ok_iff.1 hrest
  obtain ⟨hm5, hm3⟩ := elementsOnly_foldAt helems hmid
  obtain ⟨happ, hkeep, -⟩ := (apply_eq_ok hmint).1 _ rfl
  obtain ⟨hm3', hm5'⟩ := foldAt_arrangement hrest
  refine ⟨mid.m3, hm3, ?_, ?_⟩
  · rw [hm3']
    exact happ
  · rw [hm5', hkeep, hm5]

theorem foldAt_values {w w' : World} {seq : ℕ} {recs : List Record}
    (h : foldAt w seq recs = .ok w') (t : Tumbler) (b : List UInt8)
    (hb : w.content.bytesAt t = some b) : w'.content.bytesAt t = some b := by
  rw [ContentStore.bytesAt, Option.map_eq_some_iff] at hb
  obtain ⟨p, hp, rfl⟩ := hb
  rw [foldAt_content h, ContentStore.bytesAt,
    ContentStore.valueAt_of_entries (ContentStore.entries_applyAll _ _) hp, Option.map_some]

end World

/-- What is arranged after records was arranged before them, or is stated by one. -/
theorem M5State.arranges_foldl {P : Address → Prop} {seq : ℕ} {recs : List M5Rec}
    (hP : ∀ r ∈ recs, ∀ x ∈ denRuns r.stated, P x) {s : M5State} {d x : Address}
    (h : (recs.foldl (fun s r => s.applyM5 seq r) s).Arranges d x) :
    P x ∨ ∃ d', s.Arranges d' x := by
  induction recs generalizing s with
  | nil => exact .inr ⟨d, h⟩
  | cons r recs ih =>
    rcases ih (fun r' hr' => hP r' (List.mem_cons_of_mem _ hr')) h with hx | ⟨d', hx⟩
    · exact .inl hx
    rcases (s.arranges_applyM5 seq r d' x).1 hx with hx | ⟨-, hx⟩
    · exact .inr ⟨d', hx⟩
    · have hhead := hP r List.mem_cons_self x
      cases r with
      | contentPlace => exact .inl (hhead hx)
      | shotPlace => exact .inl (hhead hx)
      | versionSnapshot source new => exact .inr ⟨source, hx⟩
      | _ => simp [placed] at hx

/-- Records that place only what is supplied leave only what is stored. -/
theorem Supplied.foldl {w w' : World} {seq : ℕ} (elems : List Record) {all : List Record}
    {recs : List M5Rec}
    (hfold : foldAt w seq all = .ok w')
    (hall : all.filterMap Record.content? = elems.filterMap Record.content?)
    (hm5 : w'.m5 = recs.foldl (fun s r => s.applyM5 seq r) w.m5)
    (hP : ∀ r ∈ recs, ∀ x ∈ denRuns r.stated, Supplied w elems x) (d x : Address)
    (hx : w'.m5.Arranges d x) :
    (∃ b, w'.content.bytesAt x.tumbler = some b) ∨ ∃ d', w.m5.Arranges d' x := by
  rw [hm5] at hx
  rcases M5State.arranges_foldl hP hx with hx | hx
  · rw [World.foldAt_content hfold, hall]
    exact hx
  · exact .inr hx

theorem filterMap_content_arrangement (recs : List M5Rec) :
    (recs.map Record.arrangement).filterMap Record.content? = [] := by
  rw [List.filterMap_map]
  exact List.filterMap_eq_nil_iff.2 fun _ _ => rfl

-- What each effect does

section Edits

variable {w w' : World} {seq : ℕ} {doc : Address} {elems : List Record} {stated : Option Base}

/-- What edits of one document leave alone. -/
structure EditsKeep (w : World) (doc : Address) (s s' : M5State) : Prop where
  content : ∀ d, d ≠ doc → s'.contentList d = s.contentList d
  links : ∀ d, s'.linkList d = s.linkList d
  birth : ∀ m, s'.birthExtent m = s.birthExtent m
  base : ∀ d b, s'.draftBase d = some b → s.draftBase d = some b ∨ w.Publishable b

theorem Edits.keep (seq : ℕ) (hw : w.Sound) {r : M5Rec} (h : Edits w elems stated doc r) (s : M5State) :
    EditsKeep w doc s (s.applyM5 seq r) := by
  have hcontent : ∀ d, d ≠ doc → (s.applyM5 seq r).contentList d = s.contentList d := by
    intro d hd
    rw [M5State.contentList_applyM5, if_neg]
    cases h <;> simp [M5Rec.moves, Ne.symm hd]
  have hlinks : ∀ d, (s.applyM5 seq r).linkList d = s.linkList d := by
    intro d
    rcases s.linkList_applyM5 seq r d with hkept | ⟨_, _, rfl, -⟩ | ⟨_, rfl, -⟩
    · exact hkept
    · cases h
    · cases h
  have hbirth : ∀ m, (s.applyM5 seq r).birthExtent m = s.birthExtent m := by
    intro m
    cases h <;> rfl
  refine ⟨hcontent, hlinks, hbirth, fun d b hb => ?_⟩
  rw [M5State.draftBase_applyM5] at hb
  cases h with
  | base source merge hstated hstanding hmember hchain hextent =>
    simp only at hb
    split at hb
    · cases hb
      have hpub : publishedTarget w.m3 _ = true := (hw.base _ _ hstanding).published
      rw [publishedTarget, ← hchain] at hpub
      exact .inr ⟨hmember, hpub, hextent⟩
    · exact .inl hb
  | place => exact .inl hb
  | remove => exact .inl hb
  | reorder => exact .inl hb

theorem Edits.keep_foldl (seq : ℕ) (hw : w.Sound) {recs : List M5Rec}
    (h : ∀ r ∈ recs, Edits w elems stated doc r) (s : M5State) :
    EditsKeep w doc s (recs.foldl (fun s r => s.applyM5 seq r) s) := by
  induction recs generalizing s with
  | nil => exact ⟨fun _ _ => rfl, fun _ => rfl, fun _ => rfl, fun _ _ hb => .inl hb⟩
  | cons r recs ih =>
    have hhead := (h r List.mem_cons_self).keep seq hw s
    have htail := ih (fun r' hr' => h r' (List.mem_cons_of_mem _ hr')) (s.applyM5 seq r)
    refine ⟨fun d hd => ?_, fun d => ?_, fun m => ?_, fun d b hb => ?_⟩
    · rw [List.foldl_cons, htail.content d hd, hhead.content d hd]
    · rw [List.foldl_cons, htail.links d, hhead.links d]
    · rw [List.foldl_cons, htail.birth m, hhead.birth m]
    · rcases htail.base d b hb with hb | hb
      · exact hhead.base d b hb
      · exact .inr hb

theorem moved_edit (hw : w.Sound) {recs : List M5Rec} (hdoc : w.m3.isRegisteredDocument doc = true)
    (hprivate : publishedTarget w.m3 doc = false) (helems : ∀ r ∈ elems, r.MintsElement)
    (hrecs : ∀ r ∈ recs, Edits w elems stated doc r)
    (h : foldAt w seq (elems ++ recs.map Record.arrangement) = .ok w') : w.Moved w' := by
  obtain ⟨hm3, hm5⟩ := World.foldAt_elements helems h
  have hkeep := Edits.keep_foldl seq hw hrecs w.m5
  rw [← hm5] at hkeep
  refine ⟨hm3.sound hw.m3, hm3.grows, World.foldAt_values h, ?_, fun d => ?_,
    fun d => .inl (hkeep.links d), fun m => ?_, fun d b hb => ?_⟩
  · refine Supplied.foldl elems h ?_ hm5 fun r hr x hx => ?_
    · rw [List.filterMap_append, filterMap_content_arrangement, List.append_nil]
    · cases hrecs r hr with
      | place ord hplace => exact hplace x hx
      | _ => simp [M5Rec.stated] at hx
  · by_cases hd : d = doc
    · subst hd
      exact .edited hdoc hprivate
    · exact .kept (hkeep.content d hd)
  · exact .kept (hkeep.birth m)
  · exact .inl ((hkeep.base d b hb).elim (hw.base d b) id)

theorem depositSurface_depositSurface {m3 : M3State} {d : Address}
    (hpub : publishedTarget m3 d = true) :
    trunkOf (depositSurface m3 d) = trunkOf d ∧
      depositSurface m3 (depositSurface m3 d) = depositSurface m3 d := by
  have htrunk : trunkOf (depositSurface m3 d) = trunkOf d := by
    rw [depositSurface, if_neg (by simp [hpub])]
    cases hhead : trunkHead m3 d with
    | none => exact trunkOf_trunkOf d
    | some head => exact (M3State.trunkHead_registered hhead).2.1
  have hpub' : publishedTarget m3 (depositSurface m3 d) = true := by
    rw [publishedTarget, htrunk]
    exact hpub
  have hhead : trunkHead m3 (depositSurface m3 d) = trunkHead m3 d := by
    rw [trunkHead, trunkHead, htrunk]
  refine ⟨htrunk, ?_⟩
  rw [depositSurface, if_neg (by simp [hpub']), hhead, htrunk, depositSurface,
    if_neg (by simp [hpub])]

theorem depositSurface_registered {m3 : M3State} (hs : m3.Sound) {d : Address}
    (hd : m3.isRegisteredDocument d = true) :
    m3.isRegisteredDocument (depositSurface m3 d) = true := by
  rw [depositSurface]
  split
  · exact hd
  · cases hhead : trunkHead m3 d with
    | none => exact hs.trunk d hd
    | some head => exact (M3State.trunkHead_registered hhead).1

theorem moved_deposit (hw : w.Sound) {runs : List Run}
    (hdoc : w.m3.isRegisteredDocument doc = true) (hpub : publishedTarget w.m3 doc = true)
    (helems : ∀ r ∈ elems, r.MintsElement) (hruns : ∀ x ∈ denRuns runs, Supplied w elems x)
    (h : foldAt w seq (elems ++ [.arrangement (.contentPlace (depositSurface w.m3 doc)
      (w.m5.contentCount (depositSurface w.m3 doc) + 1) runs)]) = .ok w') : w.Moved w' := by
  have hfold : w.m3.DocumentsAgree w'.m3 ∧ w'.m5 = [M5Rec.contentPlace (depositSurface w.m3 doc)
      (w.m5.contentCount (depositSurface w.m3 doc) + 1) runs].foldl
        (fun s r => s.applyM5 seq r) w.m5 := World.foldAt_elements helems h
  obtain ⟨hm3, hm5⟩ := hfold
  refine ⟨hm3.sound hw.m3, hm3.grows, World.foldAt_values h, ?_, fun d => ?_, fun d => .inl ?_,
    fun m => ?_, fun d b hb => ?_⟩
  · refine Supplied.foldl elems h ?_ hm5 fun r hr x hx => ?_
    · rw [List.filterMap_append]
      exact List.append_nil _
    · rw [List.mem_singleton] at hr
      subst hr
      exact hruns x hx
  · have hcontent := M5State.contentList_applyM5 w.m5 seq (.contentPlace (depositSurface w.m3 doc)
      (w.m5.contentCount (depositSurface w.m3 doc) + 1) runs) d
    rw [List.foldl_cons, List.foldl_nil] at hm5
    rw [← hm5] at hcontent
    split at hcontent
    · next hd =>
      obtain rfl : depositSurface w.m3 doc = d := Option.some.inj hd
      refine .deposited (denRuns runs) (depositSurface_registered hw.m3 hdoc)
        (depositSurface_depositSurface hpub).2 ?_
      rw [hcontent, M5State.contentAfter, RunList.den_spliceIn, Nat.add_sub_cancel,
        World.contentCount_eq, List.take_length, List.drop_length, List.append_nil]
    · exact .kept hcontent
  · rw [List.foldl_cons, List.foldl_nil] at hm5
    rw [hm5]
    exact (w.m5.linkList_applyM5 seq _ d).resolve_right (by simp)
  · exact .kept (by rw [hm5]; rfl)
  · rw [hm5] at hb
    exact .inl (hw.base d b hb)

end Edits

section Mints

variable {w w' : World} {seq : ℕ} {new : Address} {pub : Bool} {elems : List Record}

/-- A fork mints a document: a trunk, or a version of a published chain. -/
theorem ForkMint.staged {mid : M3State} (h : ForkMint w new pub) (hmid : w.m3.DocumentsAgree mid) :
    (M3Rec.allocate new pub).Staged mid ∧ new.level = .document ∧
      (trunkOf new = new ∨ ∃ source, w.m3.isRegisteredDocument source = true ∧
        publishedTarget w.m3 source = true ∧ trunkOf new = trunkOf source) := by
  cases h with
  | version hsource hpub hnew =>
    have hsource' : mid.isRegisteredDocument _ = true := hmid.isRegisteredDocument_eq ▸ hsource
    obtain ⟨hlv, htrunk, -⟩ := trunkOf_childOf (M3State.level_of_isRegisteredDocument hsource)
      (namespaceOf_eq_some hnew).1
    exact ⟨.version hsource' hnew, hlv, .inr ⟨_, hsource, hpub, htrunk⟩⟩
  | document _ haccount hnew =>
    have hacc := M3State.level_of_isRegisteredAccount haccount
    obtain ⟨hlv, htrunk⟩ := trunkOf_childOf_account hacc (namespaceOf_eq_some hnew).1
    exact ⟨.document hacc hnew, hlv, .inl htrunk⟩

/-- What the mint of a document does to the namespace. -/
structure DocumentMinted (m3 m3' : M3State) (new : Address) (pub : Bool) : Prop where
  sound : m3'.Sound
  grows : m3.Grows m3'
  fresh : m3.isRegisteredDocument new = false
  registered : m3'.isRegisteredDocument new = true
  published : m3'.published new = pub
  birth : isBirthVersion new = true → publishedTarget m3' new = true

theorem ForkMint.minted (h : ForkMint w new pub) (hw : w.Sound) {mid m3' : M3State}
    (hmid : w.m3.DocumentsAgree mid)
    (happ : (mid.applyM3 seq (.allocate new pub) : Outcome Empty M3State) = .ok m3') :
    DocumentMinted w.m3 m3' new pub := by
  obtain ⟨hstaged, hlv, htrunk⟩ := h.staged hmid
  have hsound := hmid.sound hw.m3
  obtain ⟨hsound', hgrows, -⟩ := hsound.step hstaged happ
  obtain ⟨hfresh, hbits⟩ := M3State.publication_allocate hsound happ hlv
  have hgrows' := hmid.grows.trans hgrows
  refine ⟨hsound', hgrows', ?_, ?_, ?_, fun hbirth => ?_⟩
  · rwa [← hmid.isRegisteredDocument_eq]
  · exact (M3State.isRegisteredDocument_allocate happ new).2 (.inr ⟨rfl, hlv⟩)
  · rw [M3State.published, hbits, OrdMap.get_insert_self, Option.getD_some]
  · -- a first version is no trunk
    rcases htrunk with htrunk | ⟨source, hsource, hpub, htrunk⟩
    · exact absurd htrunk (isBirthVersion_trunk hbirth).1
    · rw [publishedTarget, htrunk, ← publishedTarget, hgrows'.publishedTarget_eq hw.m3 hsource, hpub]

/-- The mint of a document moves that document alone. -/
theorem moved_mint (hw : w.Sound) (hmint : ForkMint w new pub)
    (helems : ∀ r ∈ elems, r.MintsElement) {recs : List M5Rec}
    (h : foldAt w seq (elems ++ .namespaceRec (.allocate new pub) ::
      recs.map Record.arrangement) = .ok w')
    (hsupplied : ∀ r ∈ recs, ∀ x ∈ denRuns r.stated, Supplied w elems x)
    (hcontent : ∀ d, d ≠ new → w'.m5.contentList d = w.m5.contentList d)
    (hlinks : ∀ d, w'.m5.linkList d = w.m5.linkList d ∨ d = new)
    (hbirth : ∀ m, w'.m5.birthExtent m = w.m5.birthExtent m ∨
      (m = new ∧ isBirthVersion m = true ∧ w'.m5.birthExtent m = some (w'.m5.contentCount m)))
    (hbase : DocumentMinted w.m3 w'.m3 new pub → ∀ d b, w'.m5.draftBase d = some b →
      w.Publishable b ∨ w'.Publishable b) : w.Moved w' := by
  obtain ⟨mid, hmid, happ, hm5⟩ := World.foldAt_mint helems h
  have hminted := hmint.minted hw hmid happ
  refine ⟨hminted.sound, hminted.grows, World.foldAt_values h, ?_, fun d => ?_, fun d => ?_,
    fun m => ?_, hbase hminted⟩
  · refine Supplied.foldl elems h ?_ hm5 hsupplied
    rw [List.filterMap_append, List.filterMap_cons_none (by rfl), filterMap_content_arrangement,
      List.append_nil]
  · by_cases hd : d = new
    · subst hd
      exact .minted hminted.fresh hminted.registered
    · exact .kept (hcontent d hd)
  · rcases hlinks d with hkept | rfl
    · exact .inl hkept
    · -- a document has no link before its mint
      rw [hw.unlinked _ hminted.fresh]
      exact .inr ⟨hminted.registered, List.nil_prefix⟩
  · rcases hbirth m with hkept | ⟨rfl, hm, hnoted⟩
    · exact .kept hkept
    · exact .noted hminted.fresh hminted.registered (hminted.birth hm) hnoted

/-- The birth a record notes is the extent it leaves the document. -/
theorem M5State.born_eq_count {s : M5State} {seq : ℕ} {r : M5Rec} {m : Address} {n : ℕ}
    (hempty : (s.contentList m).den = []) (h : s.born r = some (m, n)) :
    (s.applyM5 seq r).contentCount m = n := by
  have hzero : (s.contentList m).totalWidth = 0 := by
    rw [← RunList.length_den, hempty]
    rfl
  have hcontent := s.contentList_applyM5 seq r m
  cases r with
  | shotPlace doc runs terms draft =>
    obtain ⟨rfl, rfl⟩ := Prod.mk.inj (Option.some.inj h)
    rw [M5State.contentCount, hcontent, if_pos (by simp only [M5Rec.moves]), M5State.contentAfter]
    split
    · next hruns =>
      rw [hzero, ← RunList.length_den, RunList.den_spliceIn, hempty, List.isEmpty_iff.1 hruns]
      rfl
    · rfl
  | versionSnapshot source new =>
    obtain ⟨rfl, rfl⟩ := Prod.mk.inj (Option.some.inj h)
    rw [M5State.contentCount, hcontent, if_pos (by simp only [M5Rec.moves]), M5State.contentAfter]
    split
    · next hsource =>
      rw [RunList.isEmpty, List.isEmpty_iff] at hsource
      rw [hzero, RunList.totalWidth, hsource]
      rfl
    · rfl
  | _ => cases h

/-- A record that moves a fresh document notes at most its birth. -/
theorem M5State.birth_of_fresh {s : M5State} {seq : ℕ} {r : M5Rec}
    (hempty : (s.contentList new).den = []) (hborn : ∀ m n, s.born r = some (m, n) → m = new)
    (m : Address) : (s.applyM5 seq r).birthExtent m = s.birthExtent m ∨
      (m = new ∧ isBirthVersion m = true ∧
        (s.applyM5 seq r).birthExtent m = some ((s.applyM5 seq r).contentCount m)) := by
  rcases s.birthExtent_applyM5 seq r m with hkept | ⟨n, hnoted, -, hbirth, hn⟩
  · exact .inl hkept
  · obtain rfl := hborn m n hnoted
    exact .inr ⟨rfl, hbirth, by rw [hn, M5State.born_eq_count hempty hnoted]⟩

/-- A snapshot leaves the links of every other document. -/
theorem links_snapshot (s : M5State) (seq : ℕ) (source d : Address) :
    (s.applyM5 seq (.versionSnapshot source new)).linkList d = s.linkList d ∨ d = new := by
  rcases s.linkList_applyM5 seq (.versionSnapshot source new) d with
    hkept | ⟨_, _, hrec, -⟩ | ⟨_, hrec, -⟩
  · exact .inl hkept
  · cases hrec
  · cases hrec
    exact .inr rfl

theorem moved_fork (hw : w.Sound) (surface : Address) (hmint : ForkMint w new pub)
    (h : foldAt w seq [Record.namespaceRec (.allocate new pub),
      .arrangement (.versionSnapshot surface new)] = .ok w') : w.Moved w' := by
  have h' : foldAt w seq ([] ++ .namespaceRec (.allocate new pub) ::
    [M5Rec.versionSnapshot surface new].map Record.arrangement) = .ok w' := h
  have hempty (hfresh : w.m3.isRegisteredDocument new = false) := hw.registered new hfresh
  obtain ⟨mid, hmid, happ, hm5⟩ := World.foldAt_mint (by simp) h'
  have hminted := hmint.minted hw hmid happ
  rw [List.foldl_cons, List.foldl_nil] at hm5
  refine moved_mint hw hmint (by simp) h' ?_ (fun d hd => ?_) (fun d => ?_) (fun m => ?_)
    fun _ d b hb => ?_
  · simp [M5Rec.stated]
  · rw [hm5, M5State.contentList_applyM5, if_neg (by simpa [M5Rec.moves] using Ne.symm hd)]
  · rw [hm5]
    exact links_snapshot _ _ _ d
  · rw [hm5]
    refine M5State.birth_of_fresh (hempty hminted.fresh) (fun m n hn => ?_) m
    exact (Prod.mk.inj (Option.some.inj hn)).1.symm
  · rw [hm5, M5State.draftBase_applyM5] at hb
    exact .inl (hw.base d b hb)

theorem moved_stage (hw : w.Sound) {account surface base : Address} {extent : ℕ}
    {merge : Option Merge} (haccount : w.m3.isRegisteredAccount account = true)
    (hnew : namespaceOf new = some (documentNs account))
    (hbase : Recorded w surface base extent merge)
    (h : foldAt w seq [Record.namespaceRec (.allocate new false),
      .arrangement (.versionSnapshot surface new),
      .arrangement (.draftBase new base extent surface merge)] = .ok w') : w.Moved w' := by
  have h' : foldAt w seq ([] ++ .namespaceRec (.allocate new false) ::
    [M5Rec.versionSnapshot surface new, .draftBase new base extent surface merge].map
      Record.arrangement) = .ok w' := h
  have hmint : ForkMint w new false := .document false haccount hnew
  obtain ⟨mid, hmid, happ, hm5⟩ := World.foldAt_mint (by simp) h'
  have hminted := hmint.minted hw hmid happ
  rw [List.foldl_cons, List.foldl_cons, List.foldl_nil] at hm5
  have hcount : ∀ m, w'.m5.contentCount m =
      (w.m5.applyM5 seq (.versionSnapshot surface new)).contentCount m := fun m => by
    rw [hm5]
    rfl
  refine moved_mint hw hmint (by simp) h' ?_ (fun d hd => ?_) (fun d => ?_) (fun m => ?_)
    fun _ d b hb => ?_
  · simp [M5Rec.stated]
  · rw [hm5, M5State.contentList_applyM5, if_neg (by simp [M5Rec.moves]),
      M5State.contentList_applyM5, if_neg (by simpa [M5Rec.moves] using Ne.symm hd)]
  · rw [hm5]
    exact links_snapshot _ _ _ d
  · rw [hcount, hm5]
    refine M5State.birth_of_fresh (hw.registered new hminted.fresh) (fun m n hn => ?_) m
    exact (Prod.mk.inj (Option.some.inj hn)).1.symm
  · rw [hm5, M5State.draftBase_applyM5] at hb
    simp only at hb
    split at hb
    · cases hb
      cases hbase with
      | measured hreg hpub => exact .inl ⟨hreg, hpub, le_rfl⟩
      | inherited hstanding =>
        have hold := hw.base _ _ hstanding
        exact .inl ⟨hold.registered, hold.published, hold.extent⟩
    · rw [M5State.draftBase_applyM5] at hb
      exact .inl (hw.base d b hb)

theorem moved_publish (hw : w.Sound) {member anchor : Address} {draft : Option Address}
    {runs : List Run} (terms : ShotTerms) (helems : ∀ r ∈ elems, r.MintsElement)
    (hruns : ∀ x ∈ denRuns runs, Supplied w elems x)
    (hanchor : w.m3.isRegisteredDocument anchor = true)
    (hpub : publishedTarget w.m3 anchor = true)
    (hmember : namespaceOf member = some (versionNs anchor))
    (h : foldAt w seq (elems ++ [.namespaceRec (.allocate member true),
      .arrangement (.shotPlace member runs terms draft)]) = .ok w') : w.Moved w' := by
  have h' : foldAt w seq (elems ++ .namespaceRec (.allocate member true) ::
    [M5Rec.shotPlace member runs terms draft].map Record.arrangement) = .ok w' := h
  have hmint : ForkMint w member true := .version hanchor hpub hmember
  obtain ⟨mid, hmid, happ, hm5⟩ := World.foldAt_mint helems h'
  have hminted := hmint.minted hw hmid happ
  rw [List.foldl_cons, List.foldl_nil] at hm5
  have htrunk := (trunkOf_childOf (M3State.level_of_isRegisteredDocument hanchor)
    (namespaceOf_eq_some hmember).1).2.1
  have hpub' : publishedTarget w'.m3 member = true := by
    rw [publishedTarget, htrunk, ← publishedTarget,
      hminted.grows.publishedTarget_eq hw.m3 hanchor, hpub]
  have hempty := hw.registered member hminted.fresh
  refine moved_mint hw hmint helems h' ?_ (fun d hd => ?_) (fun d => ?_) (fun m => ?_)
    fun _ d b hb => ?_
  · intro r hr x hx
    rw [List.mem_singleton] at hr
    subst hr
    exact hruns x hx
  · rw [hm5, M5State.contentList_applyM5, if_neg (by simpa [M5Rec.moves] using Ne.symm hd)]
  · rw [hm5]
    exact .inl ((w.m5.linkList_applyM5 seq _ d).resolve_right (by simp))
  · rw [hm5]
    refine M5State.birth_of_fresh hempty (fun m n hn => ?_) m
    exact (Prod.mk.inj (Option.some.inj hn)).1.symm
  · rw [hm5, M5State.draftBase_applyM5] at hb
    cases draft with
    | none => exact .inl (hw.base d b hb)
    | some draft =>
      simp only at hb
      split at hb
      · cases hb
        -- the entry states the whole of the member
        refine .inr ⟨hminted.registered, hpub', ?_⟩
        rw [hm5, M5State.born_eq_count (n := _) hempty rfl]
      · exact .inl (hw.base d b hb)

end Mints

theorem moved_seat {w w' : World} {seq : ℕ} {doc link : Address} (hw : w.Sound)
    (hdoc : w.m3.isRegisteredDocument doc = true) (hlink : link.level = .element)
    (h : foldAt w seq [Record.namespaceRec (.allocate link false),
      .arrangement (.linkSeat doc link)] = .ok w') : w.Moved w' := by
  have h' : foldAt w seq ([.namespaceRec (.allocate link false)] ++
    [M5Rec.linkSeat doc link].map Record.arrangement) = .ok w' := h
  obtain ⟨hm3, hm5⟩ := World.foldAt_elements (by simpa [Record.MintsElement, M3Rec.MintsElement] using hlink) h'
  rw [List.foldl_cons, List.foldl_nil] at hm5
  have hcontent : ∀ d, w'.m5.contentList d = w.m5.contentList d := fun d => by
    rw [hm5, M5State.contentList_applyM5, if_neg (by simp [M5Rec.moves])]
  refine ⟨hm3.sound hw.m3, hm3.grows, World.foldAt_values h, fun d x hx => ?_,
    fun d => .kept (hcontent d), fun d => ?_, fun m => .kept (by rw [hm5]; rfl), fun d b hb => ?_⟩
  · rw [M5State.Arranges, hcontent] at hx
    exact .inr ⟨d, hx⟩
  · rw [hm5]
    rcases w.m5.linkList_applyM5 seq (.linkSeat doc link) d with
      hkept | ⟨_, run, hrec, hseated⟩ | ⟨_, hrec, -⟩
    · exact .inl hkept
    · cases hrec
      rw [hseated, RunList.den_append]
      exact .inr ⟨hm3.grows.registered _ hdoc, List.prefix_append _ _⟩
    · cases hrec
  · rw [hm5] at hb
    exact .inl (hw.base d b hb)

theorem moved_entity {w w' : World} {seq : ℕ} {recs : List M3Rec} (hw : w.Sound)
    (hrecs : EntityRecs w.m3 recs)
    (h : foldAt w seq (recs.map Record.namespaceRec) = .ok w') : w.Moved w' := by
  have hm3? : (recs.map Record.namespaceRec).filterMap Record.m3? = recs := by
    rw [List.filterMap_map]
    exact (List.filterMap_congr fun _ _ => rfl).trans List.filterMap_some
  have hm5? : (recs.map Record.namespaceRec).filterMap Record.m5? = [] := by
    rw [List.filterMap_map]
    exact List.filterMap_eq_nil_iff.2 fun _ _ => rfl
  have hm3 := World.foldAt_m3 h
  have hm5 := World.foldAt_m5 h
  rw [hm3?] at hm3
  rw [hm5?, List.foldl_nil] at hm5
  have hstaged : ∀ r ∈ recs, ∀ s, M3Rec.Staged s r := by
    cases hrecs with
    | node hlv => simpa using fun _ => M3Rec.Staged.node
    | document pub haccount ha =>
      simpa using fun _ => M3Rec.Staged.document (M3State.level_of_isRegisteredAccount haccount) ha
    | account hdel =>
      simpa using And.intro (fun s => M3Rec.Staged.account (s := s) hdel.account)
        fun s => M3Rec.Staged.principal (s := s)
  obtain ⟨hsound, hgrows⟩ := hw.m3.applyAll hstaged hm3
  exact ⟨hsound, hgrows, World.foldAt_values h, fun d x hx => .inr ⟨d, hm5 ▸ hx⟩,
    fun d => .kept (by rw [hm5]), fun d => .inl (by rw [hm5]), fun m => .kept (by rw [hm5]),
    fun d b hb => .inl (hw.base d b (hm5 ▸ hb))⟩

theorem Effect.moved {w w' : World} {seq : ℕ} {inst : Option Address} {recs : List Record}
    (hw : w.Sound) (h : Effect w inst recs) (hfold : foldAt w seq recs = .ok w') : w.Moved w' := by
  cases h with
  | edit hdoc hprivate helems h => exact moved_edit hw hdoc hprivate helems h hfold
  | deposit hdoc hpub helems h => exact moved_deposit hw hdoc hpub helems h hfold
  | fork surface h => exact moved_fork hw surface h hfold
  | stage haccount hnew hbase => exact moved_stage hw haccount hnew hbase hfold
  | publish terms helems hruns hanchor hpub hmember hdraft =>
    exact moved_publish hw terms helems hruns hanchor hpub hmember hfold
  | seat hdoc hlink => exact moved_seat hw hdoc hlink hfold
  | entity h => exact moved_entity hw h hfold

-- What records arrange on the way

namespace M5State

theorem arranges_adds {s : M5State} {seq : ℕ} {r : M5Rec} (hr : r.Adds) {d x : Address}
    (h : s.Arranges d x) : (s.applyM5 seq r).Arranges d x := by
  rw [Arranges, contentList_applyM5]
  split
  · next hmoves =>
    cases r with
    | contentPlace doc ordinal runs =>
      cases hmoves
      exact RunList.mem_den_spliceIn.2 (.inl h)
    | shotPlace doc runs terms draft =>
      cases hmoves
      rw [contentAfter]
      split
      · exact h
      · exact RunList.mem_den_spliceIn.2 (.inl h)
    | contentRemove => exact hr.elim
    | contentReorder => exact hr.elim
    | versionSnapshot => exact hr.elim
    | linkSeat => cases hmoves
    | draftBase => cases hmoves
  · exact h

theorem arranges_foldl_adds {seq : ℕ} {recs : List M5Rec} (hr : ∀ r ∈ recs, r.Adds) {s : M5State}
    {d x : Address} (h : s.Arranges d x) :
    (recs.foldl (fun s r => s.applyM5 seq r) s).Arranges d x := by
  induction recs generalizing s with
  | nil => exact h
  | cons r recs ih =>
    exact ih (fun r' hr' => hr r' (List.mem_cons_of_mem _ hr')) (arranges_adds (hr r List.mem_cons_self) h)

theorem arranges_foldl_clears {seq : ℕ} {recs : List M5Rec}
    (hr : ∀ r ∈ recs, ∀ s : M5State, s.placed r = []) {s : M5State} {d x : Address}
    (h : (recs.foldl (fun s r => s.applyM5 seq r) s).Arranges d x) : s.Arranges d x := by
  induction recs generalizing s with
  | nil => exact h
  | cons r recs ih =>
    have hmid := ih (fun r' hr' => hr r' (List.mem_cons_of_mem _ hr')) h
    refine ((s.arranges_applyM5 seq r d x).1 hmid).resolve_right fun hplaced => ?_
    rw [hr r List.mem_cons_self s] at hplaced
    exact List.not_mem_nil hplaced.2

/-- Records that take away before they add arrange on the way only what was or
stays arranged. -/
theorem settled {seq : ℕ} {clear fill pre : List M5Rec}
    (hclear : ∀ r ∈ clear, ∀ s : M5State, s.placed r = []) (hfill : ∀ r ∈ fill.tail, r.Adds)
    (hpre : pre <+: clear ++ fill) {s : M5State} {d x : Address}
    (h : (pre.foldl (fun s r => s.applyM5 seq r) s).Arranges d x) :
    s.Arranges d x ∨ ((clear ++ fill).foldl (fun s r => s.applyM5 seq r) s).Arranges d x := by
  rcases List.prefix_or_prefix_of_prefix hpre (List.prefix_append clear fill) with hle | ⟨mid, rfl⟩
  · exact .inl (arranges_foldl_clears (fun r hr => hclear r (hle.subset hr)) h)
  · rw [List.prefix_append_right_inj] at hpre
    obtain ⟨rest, rfl⟩ := hpre
    cases mid with
    | nil =>
      rw [List.append_nil] at h
      exact .inl (arranges_foldl_clears hclear h)
    | cons r mid =>
      refine .inr ?_
      rw [← List.append_assoc, List.foldl_append]
      exact arranges_foldl_adds (fun r' hr' => hfill r' (by simp [hr'])) h

end M5State

theorem filterMap_m5_arrangement (recs : List M5Rec) :
    (recs.map Record.arrangement).filterMap Record.m5? = recs := by
  rw [List.filterMap_map]
  exact (List.filterMap_congr fun _ _ => rfl).trans List.filterMap_some

theorem filterMap_m5_elements {elems : List Record} (h : ∀ r ∈ elems, r.MintsElement) :
    elems.filterMap Record.m5? = [] := by
  refine List.filterMap_eq_nil_iff.2 fun r hr => ?_
  cases r with
  | arrangement => exact (h _ hr).elim
  | _ => rfl

/-- What the records of an effect arrange on the way was or stays arranged. -/
theorem Effect.settled {w w' : World} {seq : ℕ} {inst : Option Address} {recs : List Record}
    (h : Effect w inst recs)
    (hfold : foldAt w seq recs = .ok w') {pre : List M5Rec} (hpre : pre <+: recs.filterMap Record.m5?)
    {d x : Address} (hx : (pre.foldl (fun s r => s.applyM5 seq r) w.m5).Arranges d x) :
    w.m5.Arranges d x ∨ w'.m5.Arranges d x := by
  -- every effect takes away, then places once, then only adds
  have hshape : ∃ clear fill : List M5Rec, recs.filterMap Record.m5? = clear ++ fill ∧
      (∀ r ∈ clear, ∀ s : M5State, s.placed r = []) ∧ ∀ r ∈ fill.tail, r.Adds := by
    cases h with
    | @edit doc elems stated clear fill hdoc hprivate helems hedits hclear hfill =>
      refine ⟨clear, fill, ?_, fun r hr s => ?_, fun r hr => hfill r (List.mem_of_mem_tail hr)⟩
      · rw [List.filterMap_append, filterMap_m5_elements helems, filterMap_m5_arrangement,
          List.nil_append]
      · have hnone := hclear r hr
        cases hedits r (List.mem_append_left _ hr) with
        | place => exact hnone
        | remove => rfl
        | reorder => rfl
        | base => rfl
    | @deposit doc elems runs hdoc hpub helems hruns =>
      refine ⟨[], [.contentPlace (depositSurface w.m3 doc)
        (w.m5.contentCount (depositSurface w.m3 doc) + 1) runs], ?_, by simp, by simp⟩
      rw [List.filterMap_append, filterMap_m5_elements helems, List.nil_append]
      rfl
    | @fork new pub surface hmint =>
      exact ⟨[], [.versionSnapshot surface new], rfl, by simp, by simp⟩
    | @stage new account surface base extent merge haccount hnew hbase =>
      exact ⟨[], [.versionSnapshot surface new, .draftBase new base extent surface merge], rfl,
        by simp, by simp [M5Rec.Adds]⟩
    | @publish member anchor elems _ runs terms helems =>
      refine ⟨[], [.shotPlace member runs terms inst], ?_, by simp, by simp⟩
      rw [List.filterMap_append, filterMap_m5_elements helems, List.nil_append]
      rfl
    | @seat doc link hdoc hlink => exact ⟨[], [.linkSeat doc link], rfl, by simp, by simp⟩
    | entity hrecs =>
      refine ⟨[], [], ?_, by simp, by simp⟩
      rw [List.filterMap_map]
      exact List.filterMap_eq_nil_iff.2 fun _ _ => rfl
  obtain ⟨clear, fill, hrecs, hclear, hfill⟩ := hshape
  have hm5 := World.foldAt_m5 hfold
  rw [hrecs] at hpre hm5
  rw [hm5]
  exact M5State.settled hclear hfill hpre hx
