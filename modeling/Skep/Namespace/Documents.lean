import Skep.Namespace.Chain

/-!
# Documents and their chains

What the mints and the allocation records do to the documents: which are
registered, which are published, and where each chain ends.
-/

namespace M3State

theorem seed_folds : ∃ s, (roots.applyAll 0 seed : Outcome Empty M3State) = .ok s :=
  Outcome.isOk_iff.1 (by decide)

/-- The slice a board starts from. -/
def genesis : M3State :=
  match h : (roots.applyAll 0 seed : Outcome Empty M3State) with
  | .ok s => s
  | .err _ => absurd seed_folds (by simp [h])
  | .fault => absurd seed_folds (by simp [h])

end M3State

/-- A chain whose first address the gate admits has an address at every ordinal. -/
theorem nthIn_eq_ok {key : NsKey} {p c : Address} {n : ℕ} (hp : p.tumbler = key.parent)
    (hgate : incPreservesT4 p key.g.incK = true) (hc : c.tumbler = inc key.parent key.g.incK)
    (hn : n ≠ 0) : nthIn key n = .ok (c.advance (n - 1)) := by
  have hanchor : validate key.parent = .ok p := validate_eq_ok_iff.2 hp
  have hfirst : firstIn key = .ok c := by
    simp only [firstIn, checkedInc, hanchor, Outcome.expect_ok, Outcome.ok_bind,
      Outcome.bind_eq_ok_iff, Outcome.expect_eq_ok_iff, Outcome.refuseIf_eq_ok_iff, hgate]
    exact ⟨(), by simp, validate_eq_ok_iff.2 (by rw [hc, hp])⟩
  rw [nthIn, if_neg hn, hfirst, Outcome.ok_bind, Outcome.expect_eq_ok_iff]
  exact validate_eq_ok_iff.2 rfl

/-- A document's chain of versions has an address at every ordinal. -/
theorem exists_nthIn_versionNs {source : Address} (h : source.level = .document) {n : ℕ}
    (hn : n ≠ 0) : ∃ a, nthIn (versionNs source) n = .ok a := by
  have hadm : (t4Scan (inc source.tumbler 1)).admittedLevel = some .document :=
    (admits_same (p := source.tumbler) (e := [1]) (by simp) (by simp [inc])
      source.getLast?_ne_zero).2 (h ▸ source.admitted)
  exact ⟨_, nthIn_eq_ok (p := source) (c := ⟨_, .document, hadm⟩) rfl rfl rfl hn⟩

theorem firstVersionAddress_childOf {source a : Address} (h : firstVersionAddress source = some a) :
    source.level = .document ∧ a.ChildOf (versionNs source) 1 := by
  rw [firstVersionAddress] at h
  split at h
  · next hlv =>
    split at h
    · next b hb =>
      cases h
      refine ⟨hlv, (nthIn_parts (n := 1) ?_).1⟩
      rw [nthIn, if_neg one_ne_zero, hb, Outcome.ok_bind, Outcome.expect_eq_ok_iff]
      exact validate_eq_ok_iff.2 (by simp)
    · cases h
  · cases h

theorem isBirthVersion_trunk {doc : Address} (h : isBirthVersion doc = true) :
    trunkOf doc ≠ doc ∧ doc.ChildOf (versionNs (trunkOf doc)) 1 := by
  rw [isBirthVersion, Bool.and_eq_true, bne_iff_ne, beq_iff_eq] at h
  exact ⟨h.1, (firstVersionAddress_childOf h.2).2⟩

namespace M3State

theorem ghostFloor_versionNs {source : Address} (h : source.level = .document) :
    ghostFloor (versionNs source) = 0 := by
  refine ghostFloor_of_ne fun heq => ?_
  -- the content chain is anchored at an element
  have hcount := congrArg (fun t : Tumbler => t.comps.count 0) heq
  have hsource := source.count_zero
  rw [h] at hsource
  have hghost : (contentBase ghostHomeDocument).comps.count 0 = 3 := by decide
  simp only [versionNs, hghost, Address.comps, Level.zeros] at hcount hsource
  omega

theorem namespaceOf_versionNs {a source : Address} {n : ℕ} (h : a.ChildOf (versionNs source) n) :
    namespaceOf a = some (versionNs source) :=
  h.namespaceOf_eq

theorem latestVersion_eq_some_iff {s : M3State} {source a : Address} :
    s.latestVersion source = some a ↔ source.level = .document ∧ ∃ m, m ≠ 0 ∧
      s.frontiers.get (versionNs source) = some m ∧ nthIn (versionNs source) m = .ok a := by
  rw [latestVersion]
  split
  · next h => simp [h]
  · next h =>
    rw [not_not] at h
    cases hm : s.frontiers.get (versionNs source) with
    | none => simp
    | some m =>
      simp only [h, true_and, Option.some.injEq]
      by_cases hzero : m = 0
      · subst hzero
        simp only [if_true, reduceCtorEq, false_iff, not_exists, not_and]
        rintro _ hne rfl
        exact absurd rfl hne
      · obtain ⟨b, hb⟩ := exists_nthIn_versionNs h hzero
        simp only [hzero, if_false, hb, Option.some.injEq]
        constructor
        · rintro rfl
          exact ⟨m, hzero, rfl, hb⟩
        · rintro ⟨_, -, rfl, hm'⟩
          rw [hb] at hm'
          exact Outcome.ok.inj hm'

/-- The head of a chain is a registered document of that chain. -/
theorem latestVersion_registered {s : M3State} {source a : Address}
    (h : s.latestVersion source = some a) : s.isRegisteredDocument a = true ∧
      trunkOf a = trunkOf source ∧ trunkOf a ≠ a := by
  obtain ⟨hlv, m, hm, hget, hnth⟩ := latestVersion_eq_some_iff.1 h
  obtain ⟨hchild, -⟩ := nthIn_parts hnth
  obtain ⟨halv, htrunk, hne⟩ := trunkOf_childOf hlv hchild
  refine ⟨isRegisteredDocument_iff.2 ⟨halv, (isChainMember_iff (namespaceOf_versionNs hchild)).2 ?_⟩,
    htrunk, hne⟩
  rw [ghostFloor_versionNs hlv, hchild.ordinal_eq, hget, Option.getD_some]
  omega

theorem trunkHead_registered {s : M3State} {doc a : Address} (h : trunkHead s doc = some a) :
    s.isRegisteredDocument a = true ∧ trunkOf a = trunkOf doc ∧ trunkOf a ≠ a := by
  have := latestVersion_registered h
  rwa [trunkOf_trunkOf] at this

namespace DocumentsAgree

variable {s s' : M3State}

/-- The chain of an address above the elements is a chain of no element. -/
theorem get_frontiers (h : s.DocumentsAgree s') {a : Address} {key : NsKey}
    (hkey : namespaceOf a = some key) (ha : a.level ≠ .element) :
    s'.frontiers.get key = s.frontiers.get key :=
  h.frontiers key fun _ he => level_eq_of_namespaceOf he hkey ▸ ha

theorem isChainMember_eq (h : s.DocumentsAgree s') {a : Address} (ha : a.level ≠ .element) :
    s'.isChainMember a = s.isChainMember a := by
  cases hkey : namespaceOf a with
  | none => simp [isChainMember, hkey]
  | some key => simp [isChainMember, hkey, h.get_frontiers hkey ha]

theorem entityLevel_eq (h : s.DocumentsAgree s') : s'.entityLevel = s.entityLevel := by
  funext a
  by_cases ha : a.level = .element
  · simp [entityLevel, ha]
  · have hmem := h.isChainMember_eq ha
    cases hl : a.level <;> simp_all [entityLevel, isAllocated, h.nodes]

theorem isRegisteredDocument_eq (h : s.DocumentsAgree s') :
    s'.isRegisteredDocument = s.isRegisteredDocument := by
  funext a
  rw [isRegisteredDocument, isRegisteredDocument, h.entityLevel_eq]

end DocumentsAgree

/-- An element's mint moves its own chain and nothing of the documents. -/
theorem documentsAgree_of_mintsElement {ε : Type} {s s' : M3State} {seq : ℕ} {r : M3Rec}
    (hr : r.MintsElement) (h : (s.applyM3 seq r : Outcome ε M3State) = .ok s') :
    s.DocumentsAgree s' := by
  cases r with
  | allocate addr pub =>
    have hlv : addr.level = .element := hr
    obtain ⟨key, hkey, -, rfl⟩ := applyM3_allocate_iff.1 h
    refine ⟨rfl, rfl, by simp [hlv], fun k hk => OrdMap.get_insert_of_ne _ _ ?_⟩
    rintro rfl
    exact hk addr hkey hlv
  | allocateRange first count =>
    have hlv : first.level = .element := hr
    obtain ⟨key, hkey, -, rfl⟩ := applyM3_allocateRange_iff.1 h
    refine ⟨rfl, rfl, rfl, fun k hk => OrdMap.get_insert_of_ne _ _ ?_⟩
    rintro rfl
    exact hk first hkey hlv
  | registerNode addr => exact hr.elim
  | registerPrincipal pre id => exact hr.elim

theorem nextIn_eq_ok {s : M3State} {key : NsKey} {a : Address} (h : s.nextIn key = .ok a) :
    namespaceOf a = some key ∧ ordinal a.tumbler = s.effectiveFrontier key + 1 := by
  simp only [nextIn, Outcome.bind_eq_ok_iff, Outcome.pure_eq, Outcome.ok.injEq] at h
  obtain ⟨next, hnext, -, -, rfl⟩ := h
  exact namespaceOf_nthIn hnext

theorem mintOn_eq_ok {s : M3State} {key : NsKey} {pub : Bool} {a : Address} {r : M3Rec}
    (h : s.mintOn key pub = .ok (a, r)) :
    r = .allocate a pub ∧ namespaceOf a = some key ∧
      ordinal a.tumbler = s.effectiveFrontier key + 1 := by
  simp only [mintOn, Outcome.bind_eq_ok_iff, Outcome.pure_eq, Outcome.ok.injEq,
    Prod.mk.injEq] at h
  obtain ⟨b, hb, rfl, rfl⟩ := h
  exact ⟨rfl, nextIn_eq_ok hb⟩

theorem element_of_namespaceOf {a home : Address} {key : NsKey} (hhome : home.level = .document)
    {sub : ℕ} (hsub : sub ≠ 0) (hkey : key.parent.comps = home.comps ++ [0, sub])
    (hg : key.g = .sameField) (h : namespaceOf a = some key) :
    a.comps = home.comps ++ [0, sub, ordinal a.tumbler] ∧ a.level = .element ∧
      documentOf a = some home ∧ a.elementField = some [sub, ordinal a.tumbler] := by
  obtain ⟨hchild, -⟩ := namespaceOf_eq_some h
  have hcomps : a.comps = home.comps ++ 0 :: [sub, ordinal a.tumbler] := by
    rw [hchild, hkey, hg]
    simp [Generator.sep]
  have hpos := hchild.pos
  obtain ⟨hlv, hdoc, hfield⟩ := element_of_parts hhome (by simp) (by simp; omega) hcomps
  exact ⟨hcomps, hlv, hdoc, hfield⟩

theorem contentNs_comps (home : Address) :
    (contentNs home).parent.comps = home.comps ++ [0, contentSubspace] := by
  simp [contentNs, contentBase, inc, contentSubspace, Address.comps]

theorem linkNs_comps (home : Address) :
    (linkNs home).parent.comps = home.comps ++ [0, linkSubspace] := by
  have hbase : (contentBase home).comps = (home.comps ++ [0]) ++ [1] := by
    simp [contentBase, inc, Address.comps]
  have hsig : sig (contentBase home) = (home.comps ++ [0]).length + 1 := by
    simp [sig, Tumbler.len, hbase, List.findIdx?_cons]
  show (contentBase home).comps.modify (sig (contentBase home) - 1) (· + 1) = _
  rw [hsig, hbase, Nat.add_sub_cancel, List.modify_eq_take_drop, List.take_left, List.drop_left]
  simp [linkSubspace]

/-- What a content mint issues: the next position of the home's content chain. -/
theorem mintContent_eq_ok {s : M3State} {home a : Address} {r : M3Rec}
    (h : s.mintContent home = .ok (a, r)) :
    s.isRegisteredDocument home = true ∧ r = .allocate a false ∧
      namespaceOf a = some (contentNs home) ∧
      ordinal a.tumbler = s.effectiveFrontier (contentNs home) + 1 := by
  simp only [mintContent, Outcome.bind_eq_ok_iff, Outcome.refuseIf_eq_ok_iff,
    Bool.not_eq_false, Outcome.mapErr_eq_ok_iff, exists_const] at h
  obtain ⟨hreg, h⟩ := h
  exact ⟨hreg, mintOn_eq_ok h⟩

theorem mintContentRange_eq_ok {s : M3State} {home a : Address} {count : ℕ} {r : M3Rec}
    (h : s.mintContentRange home count = .ok (a, r)) :
    count ≠ 0 ∧ s.isRegisteredDocument home = true ∧ r = .allocateRange a count ∧
      namespaceOf a = some (contentNs home) ∧
      ordinal a.tumbler = s.effectiveFrontier (contentNs home) + 1 := by
  simp only [mintContentRange, Outcome.bind_eq_ok_iff, Outcome.refuseIf_eq_ok_iff,
    Outcome.require_eq_ok_iff, Bool.not_eq_false, Outcome.mapErr_eq_ok_iff, exists_const,
    Outcome.pure_eq, Outcome.ok.injEq, Prod.mk.injEq] at h
  obtain ⟨hcount, hreg, b, hb, rfl, rfl⟩ := h
  exact ⟨hcount, hreg, rfl, nextIn_eq_ok hb⟩

theorem mintLink_eq_ok {s : M3State} {home a : Address} {r : M3Rec}
    (h : s.mintLink home = .ok (a, r)) :
    s.isRegisteredDocument home = true ∧ r = .allocate a false ∧
      namespaceOf a = some (linkNs home) ∧
      ordinal a.tumbler = s.effectiveFrontier (linkNs home) + 1 := by
  simp only [mintLink, Outcome.bind_eq_ok_iff, Outcome.refuseIf_eq_ok_iff,
    Bool.not_eq_false, Outcome.mapErr_eq_ok_iff, exists_const] at h
  exact ⟨h.1, mintOn_eq_ok h.2⟩

theorem mintVersion_eq_ok {s : M3State} {source a : Address} {pub : Bool} {r : M3Rec}
    (h : s.mintVersion source pub = .ok (a, r)) :
    s.isRegisteredDocument source = true ∧ r = .allocate a pub ∧
      namespaceOf a = some (versionNs source) ∧
      ordinal a.tumbler = s.effectiveFrontier (versionNs source) + 1 := by
  simp only [mintVersion, Outcome.bind_eq_ok_iff, Outcome.refuseIf_eq_ok_iff,
    Bool.not_eq_false, Outcome.mapErr_eq_ok_iff, exists_const] at h
  obtain ⟨hreg, h⟩ := h
  exact ⟨hreg, mintOn_eq_ok h⟩

theorem mintDocument_eq_ok {s : M3State} {account a : Address} {pub : Bool} {r : M3Rec}
    (h : s.mintDocument account pub = .ok (a, r)) :
    s.isRegisteredAccount account = true ∧ r = .allocate a pub ∧
      namespaceOf a = some (documentNs account) ∧
      ordinal a.tumbler = s.effectiveFrontier (documentNs account) + 1 := by
  simp only [mintDocument, Outcome.bind_eq_ok_iff, Outcome.refuseIf_eq_ok_iff,
    Bool.not_eq_false, Outcome.mapErr_eq_ok_iff, exists_const] at h
  obtain ⟨hreg, h⟩ := h
  exact ⟨hreg, mintOn_eq_ok h⟩

theorem level_of_isRegisteredAccount {s : M3State} {a : Address}
    (h : s.isRegisteredAccount a = true) : a.level = .account := by
  rw [isRegisteredAccount, entityLevel, beq_iff_eq] at h
  split at h
  · exact Option.some.inj h
  · cases h

/-- A publication bit for each registered document and no other, and a
registered trunk for each. -/
structure Sound (s : M3State) : Prop where
  bit : ∀ d, s.publication.contains d = true ↔ s.isRegisteredDocument d = true
  trunk : ∀ d, s.isRegisteredDocument d = true → s.isRegisteredDocument (trunkOf d) = true

/-- Documents stay registered, under the publication bit they have. -/
structure Grows (s s' : M3State) : Prop where
  registered : ∀ d, s.isRegisteredDocument d = true → s'.isRegisteredDocument d = true
  bit : ∀ d b, s.publication.get d = some b → s'.publication.get d = some b

theorem Grows.refl (s : M3State) : s.Grows s := ⟨fun _ h => h, fun _ _ h => h⟩

theorem Grows.trans {s s' s'' : M3State} (h : s.Grows s') (h' : s'.Grows s'') : s.Grows s'' :=
  ⟨fun d hd => h'.registered d (h.registered d hd), fun d b hb => h'.bit d b (h.bit d b hb)⟩

theorem DocumentsAgree.grows {s s' : M3State} (h : s.DocumentsAgree s') : s.Grows s' :=
  ⟨fun d hd => by rwa [h.isRegisteredDocument_eq], fun d b hb => by rwa [h.publication]⟩

theorem DocumentsAgree.sound {s s' : M3State} (h : s.DocumentsAgree s') (hs : s.Sound) : s'.Sound :=
  ⟨fun d => by rw [h.publication, h.isRegisteredDocument_eq]; exact hs.bit d,
    fun d => by rw [h.isRegisteredDocument_eq]; exact hs.trunk d⟩

/-- A registered document's publication bit never changes. -/
theorem Grows.published_eq {s s' : M3State} (h : s.Grows s') (hs : s.Sound) {d : Address}
    (hd : s.isRegisteredDocument d = true) : s'.published d = s.published d := by
  obtain ⟨b, hb⟩ := OrdMap.contains_iff.1 ((hs.bit d).2 hd)
  rw [published, published, hb, h.bit d b hb]

theorem Grows.publishedTarget_eq {s s' : M3State} (h : s.Grows s') (hs : s.Sound) {d : Address}
    (hd : s.isRegisteredDocument d = true) : publishedTarget s' d = publishedTarget s d :=
  h.published_eq hs (hs.trunk d hd)

theorem level_of_isRegisteredDocument {s : M3State} {d : Address}
    (h : s.isRegisteredDocument d = true) : d.level = .document :=
  (isRegisteredDocument_iff.1 h).1

/-- An allocation registers its own document and no other. -/
theorem isRegisteredDocument_allocate {ε : Type} {s s' : M3State} {seq : ℕ} {addr : Address}
    {pub : Bool} (h : (s.applyM3 seq (.allocate addr pub) : Outcome ε M3State) = .ok s')
    (d : Address) : s'.isRegisteredDocument d = true ↔
      s.isRegisteredDocument d = true ∨ (d = addr ∧ d.level = .document) := by
  rw [isRegisteredDocument_iff, isRegisteredDocument_iff, isChainMember_allocate h]
  tauto

/-- A document's allocation gives it its publication bit. -/
theorem publication_allocate {ε : Type} {s s' : M3State} (hs : s.Sound) {seq : ℕ} {addr : Address}
    {pub : Bool} (h : (s.applyM3 seq (.allocate addr pub) : Outcome ε M3State) = .ok s')
    (hlv : addr.level = .document) : s.isRegisteredDocument addr = false ∧
      s'.publication = s.publication.insert addr pub := by
  obtain ⟨key, hkey, hnext, rfl⟩ := applyM3_allocate_iff.1 h
  have hmem := not_isChainMember_of_next hkey hnext
  have hreg : s.isRegisteredDocument addr = false := by
    rw [← Bool.not_eq_true, isRegisteredDocument_iff, hmem]
    simp
  have hbit : s.publication.contains addr = false := by
    rw [← Bool.not_eq_true, hs.bit, hreg]
    simp
  exact ⟨hreg, by simp [hlv, hbit]⟩

end M3State

/-- The records the mints and the seat doors issue against a slice. -/
inductive M3Rec.Staged (s : M3State) : M3Rec → Prop
  | element {r : M3Rec} (h : r.MintsElement) : Staged s r
  | version {source a : Address} {pub : Bool} (hsource : s.isRegisteredDocument source = true)
      (h : namespaceOf a = some (versionNs source)) : Staged s (.allocate a pub)
  | document {p a : Address} {pub : Bool} (haccount : p.level = .account)
      (h : namespaceOf a = some (documentNs p)) : Staged s (.allocate a pub)
  | account {a : Address} {pub : Bool} (h : a.level = .account) : Staged s (.allocate a pub)
  | node {a : Address} : Staged s (.registerNode a)
  | principal {pre : Address} {id : PrincipalId} : Staged s (.registerPrincipal pre id)

/-- The document a record mints. -/
def M3Rec.mintedDocument : M3Rec → Option Address
  | .allocate a _ => if a.level = .document then some a else none
  | _ => none

namespace M3State

/-- The trunk of a document a staged record mints is the document or registered. -/
theorem trunk_of_staged {s : M3State} (hs : s.Sound) {a : Address} {pub : Bool}
    (hr : (M3Rec.allocate a pub).Staged s) (hlv : a.level = .document) :
    trunkOf a = a ∨ s.isRegisteredDocument (trunkOf a) = true := by
  cases hr with
  | element h =>
    have : a.level = .element := h
    simp [hlv] at this
  | version hsource h =>
    obtain ⟨-, htrunk, -⟩ := trunkOf_childOf (level_of_isRegisteredDocument hsource)
      (namespaceOf_eq_some h).1
    rw [htrunk]
    exact .inr (hs.trunk _ hsource)
  | document haccount h => exact .inl (trunkOf_childOf_account haccount (namespaceOf_eq_some h).1).2
  | account h => simp [hlv] at h

/-- A staged record keeps soundness and only adds documents. -/
theorem Sound.step {ε : Type} {s s' : M3State} (hs : s.Sound) {seq : ℕ} {r : M3Rec}
    (hr : r.Staged s) (h : (s.applyM3 seq r : Outcome ε M3State) = .ok s') :
    s'.Sound ∧ s.Grows s' ∧ ∀ d, s'.isRegisteredDocument d = true →
      s.isRegisteredDocument d = true ∨ r.mintedDocument = some d := by
  by_cases helem : r.MintsElement
  · have hagree := documentsAgree_of_mintsElement helem h
    exact ⟨hagree.sound hs, hagree.grows, fun d hd => .inl (by rwa [← hagree.isRegisteredDocument_eq])⟩
  cases r with
  | allocate addr pub =>
    have hreg := isRegisteredDocument_allocate h
    have hgrow : ∀ d, s.isRegisteredDocument d = true → s'.isRegisteredDocument d = true :=
      fun d hd => (hreg d).2 (.inl hd)
    by_cases hlv : addr.level = .document
    · obtain ⟨hnew, hpub⟩ := publication_allocate hs h hlv
      have hbit : ∀ d, s'.publication.contains d = true ↔
          s.publication.contains d = true ∨ d = addr := fun d => by
        rw [hpub, OrdMap.contains, OrdMap.contains, OrdMap.get_insert]
        split <;> simp [*]
      refine ⟨⟨fun d => ?_, fun d hd => ?_⟩, ⟨hgrow, fun d b hb => ?_⟩, fun d hd => ?_⟩
      · rw [hbit, hs.bit, hreg]
        exact or_congr_right ⟨fun hd => ⟨hd, hd ▸ hlv⟩, And.left⟩
      · rcases (hreg d).1 hd with hd | ⟨rfl, -⟩
        · exact hgrow _ (hs.trunk d hd)
        · rcases trunk_of_staged hs hr hlv with ht | ht
          · rwa [ht]
          · exact hgrow _ ht
      · rw [hpub, OrdMap.get_insert_of_ne _ _ fun hd => ?_]
        · exact hb
        · have hd' := (hs.bit d).1 (OrdMap.contains_iff.2 ⟨b, hb⟩)
          rw [hd, hnew] at hd'
          cases hd'
      · exact ((hreg d).1 hd).imp_right fun hd => by simp [M3Rec.mintedDocument, hd.1, hlv]
    · have hpub : s'.publication = s.publication := by
        obtain ⟨key, -, -, rfl⟩ := applyM3_allocate_iff.1 h
        simp [hlv]
      have hsame : ∀ d, s'.isRegisteredDocument d = true ↔ s.isRegisteredDocument d = true :=
        fun d => (hreg d).trans ⟨fun hd => hd.resolve_right fun hd => hlv (hd.1 ▸ hd.2), .inl⟩
      refine ⟨⟨fun d => ?_, fun d hd => ?_⟩, ⟨hgrow, fun d b hb => by rwa [hpub]⟩,
        fun d hd => .inl ((hsame d).1 hd)⟩
      · rw [hpub, hs.bit, hsame]
      · exact hgrow _ (hs.trunk d ((hsame d).1 hd))
  | registerNode addr =>
    cases h
    have hsame : ∀ d, ({ s with nodes := s.nodes.insert addr () } : M3State).isRegisteredDocument d =
        true ↔ s.isRegisteredDocument d = true := fun d => by
      rw [isRegisteredDocument_iff, isRegisteredDocument_iff]
      rfl
    exact ⟨⟨fun d => (hs.bit d).trans (hsame d).symm, fun d hd => (hsame _).2 (hs.trunk d ((hsame d).1 hd))⟩,
      ⟨fun d hd => (hsame d).2 hd, fun _ _ hb => hb⟩, fun d hd => .inl ((hsame d).1 hd)⟩
  | registerPrincipal pre id =>
    cases h
    exact ⟨⟨hs.bit, hs.trunk⟩, ⟨fun _ hd => hd, fun _ _ hb => hb⟩, fun _ hd => .inl hd⟩
  | allocateRange first count =>
    cases hr with
    | element h => exact absurd h helem

theorem sound_roots : roots.Sound :=
  have hnone : ∀ d, roots.isRegisteredDocument d = false := fun d => by
    rw [← Bool.not_eq_true, isRegisteredDocument_iff]
    rintro ⟨-, hmem⟩
    cases hkey : namespaceOf d with
    | none => simp [isChainMember, hkey] at hmem
    | some key =>
      rw [isChainMember_iff hkey] at hmem
      simp [roots] at hmem
      omega
  ⟨fun d => by rw [hnone]; simp [roots, OrdMap.contains], fun d => by simp [hnone]⟩

/-- Records staged whatever the slice keep soundness through their fold, and only add. -/
theorem Sound.applyAll {ε : Type} {seq : ℕ} {recs : List M3Rec}
    (hr : ∀ r ∈ recs, ∀ s, M3Rec.Staged s r) {s s' : M3State} (hs : s.Sound)
    (h : (s.applyAll seq recs : Outcome ε M3State) = .ok s') : s'.Sound ∧ s.Grows s' := by
  induction recs generalizing s with
  | nil =>
    cases h
    exact ⟨hs, .refl _⟩
  | cons r recs ih =>
    rw [M3State.applyAll, List.foldlM_cons, Outcome.bind_eq_ok_iff] at h
    obtain ⟨mid, hmid, hrest⟩ := h
    obtain ⟨hsound, hgrows, -⟩ := hs.step (hr r List.mem_cons_self s) hmid
    obtain ⟨hsound', hgrows'⟩ := ih (fun r' hr' => hr r' (List.mem_cons_of_mem _ hr')) hsound hrest
    exact ⟨hsound', hgrows.trans hgrows'⟩

theorem seed_staged : ∀ r ∈ seed, ∀ s, M3Rec.Staged s r := by
  intro r hr s
  simp only [seed, List.mem_cons, List.not_mem_nil, or_false] at hr
  rcases hr with rfl | rfl | rfl | rfl | rfl
  · exact .node
  · exact .account rfl
  · exact .principal
  · exact .document (p := systemAccount) rfl (by decide)
  · exact .document (p := systemAccount) rfl (by decide)

theorem applyAll_seed : (roots.applyAll 0 seed : Outcome Empty M3State) = .ok genesis := by
  rw [genesis]
  split
  · assumption
  · next h => exact absurd seed_folds (by simp [h])
  · next h => exact absurd seed_folds (by simp [h])

theorem sound_genesis : genesis.Sound := (sound_roots.applyAll seed_staged applyAll_seed).1

end M3State
