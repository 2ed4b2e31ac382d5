import Skep.Ops.Placement
import Skep.Arrangement.Shot
import Skep.Namespace.Ops

/-!
# What an operation stages

Every operation stages records of one of a few shapes, under guards it has
checked on the world it runs over. What a commit keeps is proved of the shapes,
and each operation is shown to stage one.
-/

/-- An address whose value is stored once `elems` are folded, or that a document arranges. -/
def Supplied (w : World) (elems : List Record) (x : Address) : Prop :=
  (∃ b, (w.content.applyAll (elems.filterMap Record.content?)).bytesAt x.tumbler = some b) ∨
    ∃ d, w.m5.Arranges d x

/-- What an edit of `doc` in place stages besides the elements it mints, `stated`
being the base it states. -/
inductive Edits (w : World) (elems : List Record) (stated : Option Base) (doc : Address) :
    M5Rec → Prop
  | place (ord : ℕ) {runs : List Run} (h : ∀ x ∈ denRuns runs, Supplied w elems x) :
      Edits w elems stated doc (.contentPlace doc ord runs)
  | remove (start width : ℕ) : Edits w elems stated doc (.contentRemove doc start width)
  | reorder (cuts : List ℕ) : Edits w elems stated doc (.contentReorder doc cuts)
  | base {standing : DraftBase} {member : Address} {extent : ℕ} (source : Address)
      (merge : Option Merge) (hstated : stated = some ⟨member, extent⟩)
      (hstanding : w.m5.draftBase doc = some standing)
      (hmember : w.m3.isRegisteredDocument member = true)
      (hchain : trunkOf member = trunkOf standing.base)
      (hextent : extent ≤ w.m5.contentCount member) :
      Edits w elems stated doc (.draftBase doc member extent source merge)

/-- The mint of a fork: a version of a published document, or a document of an account. -/
inductive ForkMint (w : World) : Address → Bool → Prop
  | version {source new : Address} (hsource : w.m3.isRegisteredDocument source = true)
      (hpub : publishedTarget w.m3 source = true)
      (hnew : namespaceOf new = some (versionNs source)) : ForkMint w new true
  | document {account new : Address} (pub : Bool)
      (haccount : w.m3.isRegisteredAccount account = true)
      (hnew : namespaceOf new = some (documentNs account)) : ForkMint w new pub

/-- The base a staged draft records: its published source, or what its source records. -/
inductive Recorded (w : World) (surface : Address) : Address → ℕ → Option Merge → Prop
  | measured (hreg : w.m3.isRegisteredDocument surface = true)
      (hpub : publishedTarget w.m3 surface = true) :
      Recorded w surface surface (w.m5.contentCount surface) none
  | inherited {standing : DraftBase} (h : w.m5.draftBase surface = some standing) :
      Recorded w surface standing.base standing.extent (standing.merge.map Merge.ofMarker)

/-- What an operation over `w` stages, and the draft whose base it records. -/
inductive Effect (w : World) : Option Address → List Record → Prop
  | edit {doc : Address} {elems : List Record} {stated : Option Base} {clear fill : List M5Rec}
      (hdoc : w.m3.isRegisteredDocument doc = true) (hprivate : publishedTarget w.m3 doc = false)
      (helems : ∀ r ∈ elems, r.MintsElement)
      (h : ∀ r ∈ clear ++ fill, Edits w elems stated doc r)
      (hclear : ∀ r ∈ clear, r.stated = []) (hfill : ∀ r ∈ fill, r.Adds) :
      Effect w (stated.map fun _ => doc) (elems ++ (clear ++ fill).map .arrangement)
  | deposit {doc : Address} {elems : List Record} {runs : List Run}
      (hdoc : w.m3.isRegisteredDocument doc = true) (hpub : publishedTarget w.m3 doc = true)
      (helems : ∀ r ∈ elems, r.MintsElement) (h : ∀ x ∈ denRuns runs, Supplied w elems x) :
      Effect w none (elems ++ [.arrangement (.contentPlace (depositSurface w.m3 doc)
        (w.m5.contentCount (depositSurface w.m3 doc) + 1) runs)])
  | fork {new : Address} {pub : Bool} (surface : Address) (h : ForkMint w new pub) :
      Effect w none [.namespaceRec (.allocate new pub), .arrangement (.versionSnapshot surface new)]
  | stage {new account surface base : Address} {extent : ℕ} {merge : Option Merge}
      (haccount : w.m3.isRegisteredAccount account = true)
      (hnew : namespaceOf new = some (documentNs account))
      (hbase : Recorded w surface base extent merge) :
      Effect w (some new) [.namespaceRec (.allocate new false),
        .arrangement (.versionSnapshot surface new),
        .arrangement (.draftBase new base extent surface merge)]
  | publish {member anchor : Address} {elems : List Record} {draft : Option Address}
      {runs : List Run} (terms : ShotTerms) (helems : ∀ r ∈ elems, r.MintsElement)
      (hruns : ∀ x ∈ denRuns runs, Supplied w elems x)
      (hanchor : w.m3.isRegisteredDocument anchor = true)
      (hpub : publishedTarget w.m3 anchor = true)
      (hmember : namespaceOf member = some (versionNs anchor))
      (hdraft : ∀ d ∈ draft, w.m3.isRegisteredDocument (trunkOf d) = true) :
      Effect w draft (elems ++ [.namespaceRec (.allocate member true),
        .arrangement (.shotPlace member runs terms draft)])
  | seat {doc link : Address} (hdoc : w.m3.isRegisteredDocument doc = true)
      (hlink : link.level = .element) : Effect w none [.namespaceRec (.allocate link false), .arrangement (.linkSeat doc link)]
  | entity {recs : List M3Rec} (h : EntityRecs w.m3 recs) :
      Effect w none (recs.map Record.namespaceRec)

theorem MintedAll.supplied {stg stg' : Staging World} {home : Address} {values : List (List UInt8)}
    {addrs : List Address} (h : MintedAll stg stg' home values addrs) {recs : List Record}
    (hrecs : stg.Pushed recs stg') {x : Address} (hx : x ∈ addrs) : Supplied stg.working recs x := by
  obtain ⟨k, hk⟩ := List.mem_iff_getElem?.1 hx
  have hlt : k < values.length := h.length_eq ▸ (List.getElem?_eq_some_iff.1 hk).1
  refine .inl ⟨values[k], ?_⟩
  rw [← World.pushed_content hrecs, h.stored k x hk, List.getElem?_eq_getElem hlt]
