import Skep.Library.Reach
import Skep.Links.State

/-!
# Supersession

A link of the supersession class claims that what it is to supersedes what it is from.
A claim is operative until it is nullified, whatever becomes of its endpoints, so the
operative claims make an arbitrary graph: the chain follows only successors through it,
and the current members are the sinks in reach.

## Main results

- `LinkState.walkSup_spec` — where the walk halts
- `LinkState.outClaims_eq` — the claims that name each of the vertices
- `LinkState.supersession_exact` — what the reads answer, over every graph of claims
-/

namespace LinkState

/-- An edge out of a superseded link. -/
structure SupEdge where
  new : Tumbler
  claim : Address
  deriving DecidableEq

/-- The head of a chain. -/
inductive Tip where
  | sink (head : Address)
  | indeterminate
  deriving DecidableEq

/-- A sink in reach, with every operative claim that names it. -/
structure CurrentMember where
  member : Address
  active : Bool
  claims : List Address
  deriving DecidableEq

/-- A denoted tumbler as the address it is. -/
def liftDenoted {ε : Type} (t : Tumbler) : Outcome ε Address := (validate t).expect

variable (reg : TypeRegistry) (s : LinkState)

/-- The claims on record, nullified or not. -/
def supClaims : List (Address × Link) := s.typeSlice (reg.shippedClass .supersedes)

/-- The edges out of a link. -/
def supFwd (x : Tumbler) : List SupEdge :=
  ((s.supClaims reg).filter fun e => e.2.fromSlot.addrs.contains x).flatMap fun e =>
    e.2.toSlot.addrs.map fun new => ⟨new, e.1⟩

def succsOperative (x : Tumbler) : OrdSet Tumbler :=
  .ofList (((s.supFwd reg x).filter fun e => !s.nullified reg e.claim.tumbler).map SupEdge.new)

/-- Every edge out of the link is nullified. -/
def isSink (x : Tumbler) : Bool := (s.supFwd reg x).all fun e => s.nullified reg e.claim.tumbler

/-- The finitely many successors: as many turns as a walk takes. -/
def successors : List Tumbler := (s.supClaims reg).flatMap fun e => e.2.toSlot.addrs

def walkSup {ε : Type} (x : Tumbler) : Outcome ε (List Tumbler × Option Tumbler) :=
  Reach.follow (s.succsOperative reg) ((s.successors reg).length + 1) x

/-- The walks serve the supersession class alone. -/
def servesWalk (ty : Endset) : Outcome Empty Bool := do
  let c ← coverageClass ty
  return decide (c = reg.shippedClass .supersedes)

/-- The walk from a link, halting at a sink, a branch or a cycle. -/
def chain (ty : Endset) (x : Address) : Outcome Empty (List Address) := do
  if ← servesWalk reg ty then
    let (path, _) ← s.walkSup reg x.tumbler
    path.mapM liftDenoted
  else return []

def isInChain (ty : Endset) (addr target : Address) : Outcome Empty Bool := do
  let path ← s.chain reg ty addr
  return path.contains target

def tip (ty : Endset) (x : Address) : Outcome Empty Tip := do
  if ← servesWalk reg ty then
    match (← s.walkSup reg x.tumbler).2 with
    | some sink => return .sink (← liftDenoted sink)
    | none => return .indeterminate
  else return .indeterminate

/-- Push a claim at the vertex it names, if it names one. -/
def noteClaim (out : List (Tumbler × List Address)) (claim : Address) (g : Tumbler) :
    List (Tumbler × List Address) :=
  out.map fun p => if p.1 = g then (p.1, p.2 ++ [claim]) else p

/-- The operative claims that name each of the vertices, in one walk over the active claims. -/
def outClaims (vertices : OrdSet Tumbler) : List (Tumbler × List Address) :=
  (s.typedLinks reg (reg.shippedClass .supersedes) .active).foldl
    (fun out e => e.2.toSlot.addrs.foldl (fun out g => noteClaim out e.1 g) out)
    (vertices.elems.map fun t => (t, []))

def isActive (a : Address) : Bool := s.resident a && !s.nullified reg a.tumbler

/-- The sinks in reach, each with its own activity and the claims on it from anywhere. -/
def current (y : Address) : Outcome Empty (List CurrentMember) := do
  let reached ← Reach.reach (s.succsOperative reg) ((s.successors reg).length + 1) y.tumbler
  let sinks := reached.filter (s.isSink reg)
  (s.outClaims reg sinks).mapM fun p => do
    let member ← liftDenoted p.1
    return ⟨member, s.isActive reg member, p.2⟩

/-- A claim that no retraction denotes. -/
def IsOperative (claim : Address) (l : Link) : Prop :=
  s.readlink claim = some l ∧ coverageClass l.typeSlot = .ok (reg.shippedClass .supersedes) ∧
    s.nullified reg claim.tumbler = false

/-- Some operative claim has the one superseded by the other. -/
def Supersedes (old new : Tumbler) : Prop :=
  ∃ claim l, s.IsOperative reg claim l ∧ old ∈ l.fromSlot.addrs ∧ new ∈ l.toSlot.addrs

/-- The one operative successor. -/
def SoleSuccessor (old new : Tumbler) : Prop :=
  s.Supersedes reg old new ∧ ∀ other, s.Supersedes reg old other → other = new

def NoSuccessor (old : Tumbler) : Prop := ∀ new, ¬ s.Supersedes reg old new

/-- Two operative successors. -/
def Forks (old : Tumbler) : Prop :=
  ∃ new other, new ≠ other ∧ s.Supersedes reg old new ∧ s.Supersedes reg old other

def Names (claim : Address) (new : Tumbler) : Prop :=
  ∃ l, s.IsOperative reg claim l ∧ new ∈ l.toSlot.addrs

/-- Every slot a deposit path builds starts at addresses. -/
def SlotsAtAddresses : Prop :=
  ∀ a l, s.readlink a = some l → ∀ t ∈ l.toSlot.addrs, ∃ b : Address, b.tumbler = t

variable {reg s}

theorem liftDenoted_eq_ok_iff {ε : Type} {t : Tumbler} {a : Address} :
    (liftDenoted t : Outcome ε Address) = .ok a ↔ a.tumbler = t := by
  rw [liftDenoted, Outcome.expect_eq_ok_iff, validate_eq_ok_iff]

theorem mem_supFwd {x : Tumbler} {e : SupEdge} : e ∈ s.supFwd reg x ↔ ∃ l,
    s.readlink e.claim = some l ∧ coverageClass l.typeSlot = .ok (reg.shippedClass .supersedes) ∧
      x ∈ l.fromSlot.addrs ∧ e.new ∈ l.toSlot.addrs := by
  simp only [supFwd, supClaims, List.mem_flatMap, List.mem_filter, mem_typeSlice, List.contains_iff_mem,
    List.mem_map, Prod.exists]
  constructor
  · rintro ⟨a, l, ⟨⟨hl, hc⟩, hx⟩, new, hnew, rfl⟩
    exact ⟨l, hl, hc, hx, hnew⟩
  · rintro ⟨l, hl, hc, hx, hnew⟩
    exact ⟨e.claim, l, ⟨⟨hl, hc⟩, hx⟩, e.new, hnew, rfl⟩

theorem step_iff {x t : Tumbler} : Reach.Step (s.succsOperative reg) x t ↔ s.Supersedes reg x t := by
  rw [Reach.Step, succsOperative, OrdSet.mem_ofList, List.mem_map]
  constructor
  · rintro ⟨e, he, rfl⟩
    rw [List.mem_filter, mem_supFwd, Bool.not_eq_true'] at he
    obtain ⟨⟨l, hl, hc, hx, hnew⟩, hop⟩ := he
    exact ⟨e.claim, l, ⟨hl, hc, hop⟩, hx, hnew⟩
  · rintro ⟨claim, l, ⟨hl, hc, hop⟩, hx, hnew⟩
    refine ⟨⟨t, claim⟩, ?_, rfl⟩
    rw [List.mem_filter, mem_supFwd, Bool.not_eq_true']
    exact ⟨⟨l, hl, hc, hx, hnew⟩, hop⟩

theorem step_eq : Reach.Step (s.succsOperative reg) = s.Supersedes reg := by
  funext x t
  exact propext step_iff

theorem sole_eq : Reach.Sole (s.succsOperative reg) = s.SoleSuccessor reg := by
  funext x t
  rw [Reach.sole_iff, step_eq, SoleSuccessor]

theorem isSink_eq : Reach.IsSink (s.succsOperative reg) = s.NoSuccessor reg := by
  funext x
  rw [Reach.IsSink, step_eq, NoSuccessor]

theorem isBranch_eq : Reach.IsBranch (s.succsOperative reg) = s.Forks reg := by
  funext x
  rw [Reach.IsBranch, step_eq, Forks]

theorem isSink_iff {x : Tumbler} : s.isSink reg x = true ↔ s.NoSuccessor reg x := by
  rw [isSink, List.all_eq_true]
  constructor
  · rintro hall new ⟨claim, l, ⟨hl, hc, hop⟩, hx, hnew⟩
    have hnull := hall ⟨new, claim⟩ (mem_supFwd.2 ⟨l, hl, hc, hx, hnew⟩)
    rw [hop] at hnull
    exact absurd hnull (by simp)
  · intro hsink e he
    obtain ⟨l, hl, hc, hx, hnew⟩ := mem_supFwd.1 he
    by_contra hop
    exact hsink e.new ⟨e.claim, l, ⟨hl, hc, by simpa using hop⟩, hx, hnew⟩

variable (reg s) in
theorem mem_successors {x t : Tumbler} (h : Reach.Step (s.succsOperative reg) x t) :
    t ∈ s.successors reg := by
  obtain ⟨claim, l, ⟨hl, hc, -⟩, -, ht⟩ := step_iff.1 h
  exact List.mem_flatMap.2 ⟨(claim, l), mem_typeSlice.2 ⟨hl, hc⟩, ht⟩

variable (reg s) in
/-- The walk halts whatever the claims are, and where. -/
theorem walkSup_spec {ε : Type} (x : Tumbler) : ∃ path stop,
    (s.walkSup reg x : Outcome ε (List Tumbler × Option Tumbler)) = .ok (path, stop) ∧
      Reach.Followed (s.succsOperative reg) x path stop :=
  Reach.follow_spec (fun _ _ h => mem_successors reg s h) x

/-- The vertices with the claims that a list of claims makes on them. -/
def claimsOn (l : List (Address × Link)) (t : Tumbler) : List Address :=
  l.flatMap fun e => (e.2.toSlot.addrs.filter fun g => decide (t = g)).map fun _ => e.1

theorem foldl_noteClaim (claim : Address) (gs : List Tumbler) (vertices : List Tumbler)
    (claims : Tumbler → List Address) :
    gs.foldl (fun out g => noteClaim out claim g) (vertices.map fun t => (t, claims t)) =
      vertices.map fun t => (t, claims t ++ (gs.filter fun g => decide (t = g)).map fun _ => claim) := by
  induction gs generalizing claims with
  | nil => simp
  | cons g gs ih =>
    have hnote : noteClaim (vertices.map fun t => (t, claims t)) claim g =
        vertices.map fun t => (t, claims t ++ if t = g then [claim] else []) := by
      rw [noteClaim, List.map_map]
      refine List.map_congr_left fun t _ => ?_
      by_cases ht : t = g
      · simp [ht]
      · simp [ht]
    rw [List.foldl_cons, hnote, ih]
    refine List.map_congr_left fun t _ => ?_
    by_cases ht : t = g
    · simp [ht]
    · simp [ht]

/-- One walk over the claims gathers those of every vertex. -/
theorem outClaims_eq (vertices : OrdSet Tumbler) : s.outClaims reg vertices = vertices.elems.map fun t =>
    (t, claimsOn (s.typedLinks reg (reg.shippedClass .supersedes) .active) t) := by
  have hfold : ∀ (l : List (Address × Link)) (claims : Tumbler → List Address),
      l.foldl (fun out e => e.2.toSlot.addrs.foldl (fun out g => noteClaim out e.1 g) out)
        (vertices.elems.map fun t => (t, claims t)) =
      vertices.elems.map fun t => (t, claims t ++ claimsOn l t) := by
    intro l
    induction l with
    | nil => exact fun claims => by simp [claimsOn]
    | cons e l ih =>
      intro claims
      rw [List.foldl_cons, foldl_noteClaim, ih]
      exact List.map_congr_left fun t _ => by simp [claimsOn]
  rw [outClaims, hfold]
  exact List.map_congr_left fun t _ => rfl

theorem mem_claimsOn {claim : Address} {t : Tumbler} :
    claim ∈ claimsOn (s.typedLinks reg (reg.shippedClass .supersedes) .active) t ↔ s.Names reg claim t := by
  simp only [claimsOn, List.mem_flatMap, mem_typedLinks, List.mem_map, List.mem_filter, decide_eq_true_eq,
    Prod.exists, View.isActive, forall_const]
  constructor
  · rintro ⟨a, l, hop, g, ⟨hg, rfl⟩, rfl⟩
    exact ⟨l, hop, hg⟩
  · rintro ⟨l, hop, ht⟩
    exact ⟨claim, l, hop, t, ⟨ht, rfl⟩, rfl⟩

/-- The claims on a vertex come in the order of their addresses. -/
theorem ascending_claimsOn (t : Tumbler) :
    (claimsOn (s.typedLinks reg (reg.shippedClass .supersedes) .active) t).Pairwise (· ≤ ·) := by
  rw [claimsOn, List.pairwise_flatMap]
  refine ⟨fun e _ => ?_, ?_⟩
  · rw [List.pairwise_map]
    exact List.pairwise_of_forall fun _ _ => le_rfl
  · refine ((s.links.ascending.filter _).filter _).imp fun {e e'} hlt => ?_
    rintro a ha b hb
    obtain ⟨-, -, rfl⟩ := List.mem_map.1 ha
    obtain ⟨-, -, rfl⟩ := List.mem_map.1 hb
    exact le_of_lt hlt

/-- Where every slot starts at addresses, all that is in reach of an address is one. -/
theorem SlotsAtAddresses.lift (hslots : s.SlotsAtAddresses) {x : Address} {t : Tumbler}
    (h : Relation.ReflTransGen (s.Supersedes reg) x.tumbler t) : ∃ a : Address, a.tumbler = t := by
  cases h with
  | refl => exact ⟨x, rfl⟩
  | tail _ hstep =>
    obtain ⟨claim, l, hop, -, hnew⟩ := hstep
    exact hslots claim l hop.1 t hnew

/-- What the chain and its head answer. -/
structure ExactWalk (reg : TypeRegistry) (s : LinkState) (x : Address) (path : List Address) (tip : Tip) :
    Prop where
  nodup : path.Nodup
  head : path.head? = some x
  chain : path.IsChain fun a b => s.SoleSuccessor reg a.tumbler b.tumbler
  last : ∃ a, path.getLast? = some a ∧ (tip = .sink a ∨ tip = .indeterminate ∧
    (s.Forks reg a.tumbler ∨ ∃ b ∈ path, s.SoleSuccessor reg a.tumbler b.tumbler))
  sink_iff : ∀ sink, tip = .sink sink ↔
    Relation.ReflTransGen (s.SoleSuccessor reg) x.tumbler sink.tumbler ∧ s.NoSuccessor reg sink.tumbler
  indeterminate_iff : tip = .indeterminate ↔
    (∃ b, Relation.ReflTransGen (s.SoleSuccessor reg) x.tumbler b ∧ s.Forks reg b) ∨
      ∃ c, Relation.ReflTransGen (s.SoleSuccessor reg) x.tumbler c ∧
        Relation.TransGen (s.SoleSuccessor reg) c c

/-- What the current members are. -/
structure ExactCurrent (reg : TypeRegistry) (s : LinkState) (x : Address) (members : List CurrentMember) :
    Prop where
  ascending : (members.map CurrentMember.member).Pairwise (· < ·)
  mem_iff : ∀ a, a ∈ members.map CurrentMember.member ↔
    Relation.ReflTransGen (s.Supersedes reg) x.tumbler a.tumbler ∧ s.NoSuccessor reg a.tumbler
  active_iff : ∀ m ∈ members, m.active = true ↔
    (∃ l, s.readlink m.member = some l) ∧ s.nullified reg m.member.tumbler = false
  claims_ascending : ∀ m ∈ members, m.claims.Pairwise (· ≤ ·)
  claims_iff : ∀ m ∈ members, ∀ claim, claim ∈ m.claims ↔ s.Names reg claim m.member.tumbler

theorem mapM_liftDenoted {ε : Type} {path : List Tumbler} {lifted : List Address}
    (h : lifted.map Address.tumbler = path) : (path.mapM liftDenoted : Outcome ε (List Address)) = .ok lifted := by
  subst h
  induction lifted with
  | nil => rfl
  | cons a lifted ih =>
    rw [List.map_cons, List.mapM_cons, liftDenoted_eq_ok_iff.2 rfl, Outcome.ok_bind, ih]
    rfl

theorem exists_lift {path : List Tumbler} (h : ∀ t ∈ path, ∃ a : Address, a.tumbler = t) :
    ∃ lifted : List Address, lifted.map Address.tumbler = path := by
  induction path with
  | nil => exact ⟨[], rfl⟩
  | cons t path ih =>
    obtain ⟨a, rfl⟩ := h t List.mem_cons_self
    obtain ⟨lifted, rfl⟩ := ih fun t ht => h t (List.mem_cons_of_mem _ ht)
    exact ⟨a :: lifted, rfl⟩

theorem servesWalk_of_class {ty : Endset} (hty : coverageClass ty = .ok (reg.shippedClass .supersedes)) :
    servesWalk reg ty = .ok true := by
  rw [servesWalk, hty]
  simp

/-- The chain answers the path, and its head where the walk halted. -/
theorem chain_tip_spec (hslots : s.SlotsAtAddresses) {ty : Endset}
    (hty : coverageClass ty = .ok (reg.shippedClass .supersedes)) (x : Address) : ∃ path tip,
    s.chain reg ty x = .ok path ∧ s.tip reg ty x = .ok tip ∧ s.ExactWalk reg x path tip := by
  obtain ⟨trail, stop, hwalk, hfollowed⟩ := walkSup_spec reg s x.tumbler
  have hlift : ∀ t ∈ trail, ∃ a : Address, a.tumbler = t := fun t ht =>
    hslots.lift (step_eq ▸ Reach.reachable_of_follows (hfollowed.reach t ht))
  obtain ⟨path, rfl⟩ := exists_lift hlift
  obtain ⟨hhalts, hnodup, hhead, hchain, -, node, hlast, hstop⟩ := hfollowed
  have hsink := fun t => hhalts.eq_some_iff (s := t)
  have hnone := hhalts.eq_none_iff
  rw [sole_eq, isBranch_eq] at hnone hstop
  simp only [sole_eq, isSink_eq] at hsink
  rw [List.isChain_map, sole_eq] at hchain
  obtain ⟨a, ha, rfl⟩ : ∃ a, path.getLast? = some a ∧ a.tumbler = node := by
    simpa [List.getLast?_map] using hlast
  have hpath : s.chain reg ty x = .ok path := by
    rw [chain, servesWalk_of_class hty, Outcome.ok_bind, if_pos rfl, hwalk, Outcome.ok_bind]
    exact mapM_liftDenoted rfl
  have hhead : path.head? = some x := by
    obtain ⟨b, hb, hbx⟩ : ∃ b, path.head? = some b ∧ b.tumbler = x.tumbler := by
      simpa [List.head?_map] using hhead
    rw [hb, Address.tumbler_injective hbx]
  rcases hstop with rfl | ⟨rfl, hstop⟩
  · refine ⟨path, .sink a, hpath, ?_, ⟨(List.Nodup.of_map _ hnodup), hhead, hchain, ⟨a, ha, .inl rfl⟩,
      fun sink => ?_, ?_⟩⟩
    · have hlifted : (liftDenoted a.tumbler : Outcome Empty Address) = .ok a := liftDenoted_eq_ok_iff.2 rfl
      rw [tip, servesWalk_of_class hty, Outcome.ok_bind, if_pos rfl, hwalk, Outcome.ok_bind]
      simp only [hlifted]
      rfl
    · rw [← hsink, Tip.sink.injEq, Option.some.injEq, Address.tumbler_injective.eq_iff]
    · rw [← hnone]
      simp
  · refine ⟨path, .indeterminate, hpath, ?_, ⟨(List.Nodup.of_map _ hnodup), hhead, hchain,
      ⟨a, ha, .inr ⟨rfl, ?_⟩⟩, fun sink => ?_, ?_⟩⟩
    · rw [tip, servesWalk_of_class hty, Outcome.ok_bind, if_pos rfl, hwalk, Outcome.ok_bind]
      rfl
    · simpa using hstop
    · rw [← hsink]
      simp
    · rw [← hnone]
      simp

/-- The member at a sink. -/
def memberAt (reg : TypeRegistry) (s : LinkState) (a : Address) : CurrentMember :=
  ⟨a, s.isActive reg a, claimsOn (s.typedLinks reg (reg.shippedClass .supersedes) .active) a.tumbler⟩

theorem members_eq {sinks : OrdSet Tumbler} {lifted : List Address}
    (h : lifted.map Address.tumbler = sinks.elems) :
    (s.outClaims reg sinks).mapM (fun p => do
      let member ← liftDenoted p.1
      return (⟨member, s.isActive reg member, p.2⟩ : CurrentMember)) =
      (.ok (lifted.map (memberAt reg s)) : Outcome Empty (List CurrentMember)) := by
  rw [outClaims_eq, ← h]
  clear h
  induction lifted with
  | nil => rfl
  | cons a lifted ih =>
    have hlifted : (liftDenoted a.tumbler : Outcome Empty Address) = .ok a := liftDenoted_eq_ok_iff.2 rfl
    rw [List.map_cons, List.map_cons, List.mapM_cons, hlifted, Outcome.ok_bind, Outcome.pure_eq, Outcome.ok_bind, ih]
    rfl

variable (reg) in
/-- The current members are the sinks in reach, with the claims on them. -/
theorem current_spec (hslots : s.SlotsAtAddresses) (x : Address) : ∃ members,
    s.current reg x = .ok members ∧ s.ExactCurrent reg x members := by
  obtain ⟨reached, hreach, hmem⟩ := Reach.reach_spec (ε := Empty)
    (fun _ _ h => mem_successors reg s h) x.tumbler
  rw [step_eq] at hmem
  have hsinks : ∀ t, t ∈ reached.filter (s.isSink reg) ↔
      Relation.ReflTransGen (s.Supersedes reg) x.tumbler t ∧ s.NoSuccessor reg t := fun t => by
    rw [OrdSet.mem_filter, hmem, isSink_iff]
  have haddresses : ∀ t ∈ (reached.filter (s.isSink reg)).elems, ∃ a : Address, a.tumbler = t := fun t ht =>
    hslots.lift ((hsinks t).1 ht).1
  obtain ⟨sinks, hlifted⟩ := exists_lift haddresses
  have hmembers : (sinks.map (memberAt reg s)).map CurrentMember.member = sinks := by
    rw [List.map_map]
    exact List.map_id' sinks
  have hasc := (reached.filter (s.isSink reg)).ascending
  refine ⟨sinks.map (memberAt reg s), ?_, ⟨?_, fun a => ?_, fun m hm => ?_, fun m hm => ?_, fun m hm claim => ?_⟩⟩
  · rw [current, hreach, Outcome.ok_bind]
    exact members_eq hlifted
  · rw [hmembers]
    rw [← hlifted, List.pairwise_map] at hasc
    exact hasc
  · rw [hmembers, ← hsinks, ← OrdSet.mem_elems, ← hlifted,
      List.mem_map_of_injective Address.tumbler_injective]
  · obtain ⟨a, -, rfl⟩ := List.mem_map.1 hm
    simp [memberAt, isActive, resident, readlink, OrdMap.contains_iff]
  · obtain ⟨a, -, rfl⟩ := List.mem_map.1 hm
    exact ascending_claimsOn a.tumbler
  · obtain ⟨a, -, rfl⟩ := List.mem_map.1 hm
    exact mem_claimsOn

/-- The reads of supersession are exact over every graph of claims: the walk halts, its head and
the current members are what the operative claims make them, and a head is the one member. -/
theorem supersession_exact (reg : TypeRegistry) (s : LinkState) (x : Address) :
    (∃ path stop, (s.walkSup reg x.tumbler : Outcome Empty (List Tumbler × Option Tumbler)) =
      .ok (path, stop)) ∧
    (s.SlotsAtAddresses → ∀ ty, coverageClass ty = .ok (reg.shippedClass .supersedes) →
      ∃ path tip members, s.chain reg ty x = .ok path ∧ s.tip reg ty x = .ok tip ∧
        s.current reg x = .ok members ∧ s.ExactWalk reg x path tip ∧ s.ExactCurrent reg x members ∧
        ∀ sink, tip = .sink sink → members.map CurrentMember.member = [sink]) := by
  constructor
  · obtain ⟨path, stop, hwalk, -⟩ := walkSup_spec (ε := Empty) reg s x.tumbler
    exact ⟨path, stop, hwalk⟩
  · intro hslots ty hty
    obtain ⟨path, tip, hpath, htip, hexact⟩ := chain_tip_spec hslots hty x
    obtain ⟨members, hmembers, hcurrent⟩ := current_spec reg hslots x
    refine ⟨path, tip, members, hpath, htip, hmembers, hexact, hcurrent, fun sink hsink => ?_⟩
    obtain ⟨hfollow, hnone⟩ := (hexact.sink_iff sink).1 hsink
    refine OrdSet.eq_of_ascending hcurrent.ascending (List.pairwise_singleton _ sink) fun a => ?_
    rw [hcurrent.mem_iff, List.mem_singleton]
    constructor
    · rintro ⟨hreach, hsink⟩
      rw [← sole_eq] at hfollow
      rw [← isSink_eq] at hnone hsink
      rw [← step_eq] at hreach
      exact Address.tumbler_injective (Reach.eq_of_isSink hfollow hnone hreach hsink)
    · rintro rfl
      refine ⟨?_, hnone⟩
      exact hfollow.lift id fun _ _ h => h.1

private def older : Address := ⟨⟨[1, 1, 0, 1, 0, 1, 0, 2, 1], by simp⟩, .element, by decide⟩

private def newer : Address := ⟨⟨[1, 1, 0, 1, 0, 1, 0, 2, 2], by simp⟩, .element, by decide⟩

private def firstClaim : Address := ⟨⟨[1, 1, 0, 1, 0, 1, 0, 2, 3], by simp⟩, .element, by decide⟩

private def secondClaim : Address := ⟨⟨[1, 1, 0, 1, 0, 1, 0, 2, 4], by simp⟩, .element, by decide⟩

/-- Two claims that a link nobody deposited supersedes another. -/
private def claimedTwice : LinkState :=
  let claim : Link := ⟨enc [older], enc [newer], TypeRegistry.build.reservedType .supersedes⟩
  ⟨⟨[(firstClaim, claim), (secondClaim, claim)], List.pairwise_pair.2 (by decide)⟩⟩

private theorem slotsAtAddresses_claimedTwice : claimedTwice.SlotsAtAddresses := by
  intro a l hl t ht
  have hmem := OrdMap.get_eq_some_iff.1 hl
  have hl : l = ⟨enc [older], enc [newer], TypeRegistry.build.reservedType .supersedes⟩ := by
    simp only [claimedTwice, List.mem_cons, Prod.mk.injEq, List.not_mem_nil, or_false] at hmem
    rcases hmem with ⟨-, h⟩ | ⟨-, h⟩ <;> exact h
  subst hl
  rw [addrs_enc, List.map_singleton, List.mem_singleton] at ht
  exact ⟨newer, ht.symm⟩

theorem supersession_exact_claimedTwice : ∃ members,
    claimedTwice.current TypeRegistry.build older = .ok members ∧
      members.map CurrentMember.member = [newer] := by
  obtain ⟨-, hreads⟩ := supersession_exact TypeRegistry.build claimedTwice older
  obtain ⟨path, tip, members, -, htip, hmembers, -, -, hone⟩ := hreads slotsAtAddresses_claimedTwice
    (TypeRegistry.build.reservedType .supersedes) (TypeRegistry.build.coverageClass_reservedType .supersedes)
  have hsink : claimedTwice.tip TypeRegistry.build (TypeRegistry.build.reservedType .supersedes) older =
      .ok (.sink newer) := by decide +kernel
  rw [hsink] at htip
  cases htip
  exact ⟨members, hmembers, hone newer rfl⟩

end LinkState
