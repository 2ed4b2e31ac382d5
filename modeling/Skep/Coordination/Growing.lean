import Skep.Coordination.Reads
import Skep.Library.Growth

/-!
# Reads of a world that grows

A later world has every link and every registered document of an earlier one, and a document
that was registered answers the guest class as it did. What is read of the audit slice only
grows with it.
-/

namespace CoordinationWorld

open Coordination

/-- The later world keeps the links and the registered documents, and what the guest class was
answered at these. -/
structure Grows (w w' : CoordinationWorld) : Prop where
  world : w.toLinkWorld.Grows w'.toLinkWorld
  guest : ∀ d, w.m3.isRegisteredDocument d = true → w'.guest d = w.guest d

theorem Grows.refl (w : CoordinationWorld) : w.Grows w := ⟨.refl _, fun _ _ => rfl⟩

theorem Grows.trans {w w' w'' : CoordinationWorld} (h : w.Grows w') (h' : w'.Grows w'') : w.Grows w'' :=
  ⟨h.world.trans h'.world, fun d hd => (h'.guest d (h.world.documents d hd)).trans (h.guest d hd)⟩

/-- One committed step. What the guest class is answered at a document is fixed from its birth. -/
structure Step (reg : TypeRegistry) (w w' : CoordinationWorld) : Prop where
  link : LinkStep reg w.toLinkWorld w'.toLinkWorld
  guest : ∀ d, w.m3.isRegisteredDocument d = true → w'.guest d = w.guest d

theorem Step.grows {reg : TypeRegistry} {w w' : CoordinationWorld} (h : w.Step reg w') : w.Grows w' :=
  ⟨h.link.grows, h.guest⟩

/-- A run of steps leads to a later world, which is sound where the first one is. -/
theorem Grows.of_run {reg : TypeRegistry} {w w' : CoordinationWorld} (h : Relation.ReflTransGen (Step reg) w w')
    (hs : w.Sound) : w.Grows w' ∧ w'.Sound := by
  induction h with
  | refl => exact ⟨.refl w, hs⟩
  | tail _ hstep ih => exact ⟨ih.1.trans hstep.grows, hstep.link.sound ih.2⟩

end CoordinationWorld

namespace Coordination

section

variable {reg : TypeRegistry} {w w' : CoordinationWorld} {c : CoverageClass} {s : Slice}

theorem mem_look_slice {t : Tuple} : t ∈ w.look.slice reg c s ↔ ∃ l, w.links.readlink t.addr = some l ∧
    coverageClass l.typeSlot = .ok c ∧ (s.view.isActive = true → w.links.nullified reg t.addr.tumbler = false) ∧
      t = l.tuple t.addr ∧ w.look.homeReadable t.addr = true := by
  simp only [GuestLinks.slice, List.mem_filter, List.mem_map, Prod.exists]
  constructor
  · rintro ⟨⟨a, l, he, rfl⟩, hreadable⟩
    obtain ⟨hl, hc, hv⟩ := LinkState.mem_typedLinks.1 he
    exact ⟨l, hl, hc, hv, rfl, hreadable⟩
  · rintro ⟨l, hl, hc, hv, ht, hreadable⟩
    exact ⟨⟨t.addr, l, LinkState.mem_typedLinks.2 ⟨hl, hc, hv⟩, ht.symm⟩, hreadable⟩

/-- A link's home answers the guest class as it did. -/
theorem homeReadable_grows (hg : w.Grows w') (hs : w.Sound) {a : Address} {l : Link}
    (h : w.links.readlink a = some l) : w'.look.homeReadable a = w.look.homeReadable a := by
  obtain ⟨home, hdoc, hreg, -⟩ := LinkWorld.Sound.documentOf hs h
  rw [GuestLinks.homeReadable, GuestLinks.homeReadable, hdoc]
  exact hg.guest home hreg

/-- **The look keeps what it sees of the audit slice.** -/
theorem slice_grows (hg : w.Grows w') (hs : w.Sound) : w.look.slice reg c .audit ⊆ w'.look.slice reg c .audit := by
  intro t ht
  obtain ⟨l, hl, hc, -, htuple, hreadable⟩ := mem_look_slice.1 ht
  refine mem_look_slice.2 ⟨l, hg.world.links _ _ hl, hc, fun h => ?_, htuple, ?_⟩
  · cases h
  · rw [homeReadable_grows hg hs hl, hreadable]

theorem slice_nodup : (w.look.slice reg c s).Nodup := by
  have hkeys := @LinkState.typedLinks_ascending reg w.links c s.view
  refine List.Nodup.filter _ (List.Nodup.of_map Tuple.addr ?_)
  rw [List.map_map]
  exact hkeys.imp ne_of_lt

end

theorem tumbler_of_lift {t : Tumbler} {a : Address} (h : lift t = .ok a) : a.tumbler = t :=
  validate_eq_ok_iff.1 (Outcome.expect_eq_ok_iff.1 h)

theorem mem_mapM_lift {l : List Tumbler} {addrs : List Address} (h : l.mapM lift = .ok addrs) (a : Address) :
    a ∈ addrs ↔ a.tumbler ∈ l := by
  have hall := Outcome.forall₂_of_mapM h
  clear h
  induction hall with
  | nil => simp
  | cons hb _ ih =>
    rw [List.mem_cons, List.mem_cons, ← tumbler_of_lift hb, Address.tumbler_injective.eq_iff]
    exact or_congr_right ih

theorem mem_denoteSlot {tuples : List Tuple} {slot : Tuple → Endset} {out : OrdSet Address}
    (h : GuestLinks.denoteSlot tuples slot = .ok out) (a : Address) :
    a ∈ out ↔ ∃ t ∈ tuples, a.tumbler ∈ (slot t).addrs := by
  obtain ⟨addrs, haddrs, hout⟩ := Outcome.bind_eq_ok_iff.1 h
  cases hout
  rw [OrdSet.mem_ofList, mem_mapM_lift haddrs, List.mem_flatMap]

section

variable {w w' : CoordinationWorld} {cat : TypeCatalog} {defs : Option DefSource} {k : TypeKey} {c : CoverageClass}

theorem uvRewrite_audit (s : OrdSet Address) : (w.ctx cat .audit defs).uvRewrite k s = .ok s := by
  have hkeep : Outcome.keepM ((w.ctx cat .audit defs).uvKeeps k) s.elems = .ok s.elems := by
    exact (Outcome.keepM_eq_filter (q := fun _ => true) fun a _ => rfl).trans (congrArg _ (List.filter_true _))
  rw [EvalCtx.uvRewrite, hkeep, Outcome.ok_bind]
  exact congrArg Outcome.ok (OrdSet.ext_mem fun a => OrdSet.mem_ofList)

theorem membersAt_audit : (w.ctx cat .audit defs).membersAt k = w.look.members cat.registry k .audit := by
  rw [EvalCtx.membersAt]
  simp only [uvRewrite_audit]
  exact bind_pure _

theorem mem_members (hc : coverageClass k = .ok c) {out : OrdSet Address}
    (h : w.look.members cat.registry k .audit = .ok out) (a : Address) :
    a ∈ out ↔ ∃ t ∈ w.look.slice cat.registry c .audit, a.tumbler ∈ t.fromSlot.addrs := by
  rw [GuestLinks.members, GuestLinks.denoted, GuestLinks.observe_eq hc, Outcome.ok_bind] at h
  simp [mem_denoteSlot h, GuestLinks.probed]

theorem mem_targetsOfDenoting (hc : coverageClass k = .ok c) {x : Address} {out : OrdSet Address}
    (h : w.look.targetsOfDenoting cat.registry k x = .ok out) (a : Address) :
    a ∈ out ↔ ∃ t ∈ w.look.slice cat.registry c .audit, x.tumbler ∈ t.fromSlot.addrs ∧
      t.fromSlot.covers x.tumbler = true ∧ a.tumbler ∈ t.toSlot.addrs := by
  rw [GuestLinks.targetsOfDenoting, GuestLinks.tuplesDenoting, GuestLinks.observe_eq hc, Outcome.ok_bind,
    Outcome.pure_eq, Outcome.ok_bind] at h
  simp [mem_denoteSlot h, GuestLinks.probed, and_assoc]

/-- The links of every cataloged type that the look sees, retracted ones too. -/
theorem linkDom_eq (view : View) : (w.ctx cat view defs).linkDom = .ok (.ofList ((ShippedType.all.flatMap fun ty =>
    w.look.slice cat.registry (cat.registry.shippedClass ty) .audit).map Tuple.addr)) := by
  have hobserve : cat.classes.mapM (fun k => w.look.observe cat.registry k {} .audit) = .ok (ShippedType.all.map
      fun ty => w.look.slice cat.registry (cat.registry.shippedClass ty) .audit) := by
    rw [TypeCatalog.classes, List.mapM_map]
    refine Outcome.mapM_eq_ok fun ty _ => ?_
    refine (GuestLinks.observe_eq (cat.registry.coverageClass_reservedType ty) {}).trans ?_
    exact congrArg Outcome.ok (List.filter_eq_self.2 fun t _ => rfl)
  rw [EvalCtx.linkDom, CoordinationWorld.ctx_catalog, CoordinationWorld.ctx_links, hobserve, Outcome.ok_bind,
    List.flatMap_def]
  rfl

end

end Coordination
