import Skep.Coordination.DefFormat

/-!
# The reader of definitions is exact

What the reader accepts is what the writer writes, and it accepts every definition whose names are
submitted and whose formers nest within the bound, at a cost of its own.
-/

namespace Coordination

open Metered

/-- The limbs of a natural, as its length counts them. -/
def natCost (n : ℕ) : ℕ := ((natBytes n).length + 7) / 8

def tumblerCost (t : Tumbler) : ℕ := countedCost natCost t.comps

def spanCost (s : Span) : ℕ := tumblerCost s.start + tumblerCost s.width

def endsetCost (e : Endset) : ℕ := countedCost spanCost e.spans

def TypeRef.cost : TypeRef → ℕ
  | .concrete k => endsetCost k
  | .classVar _ => 0

def TypeRef.Fits : TypeRef → Prop
  | .concrete _ => True
  | .classVar v => v.IsSubmitted

def Lit.cost : Lit → ℕ
  | .nat n => natCost n
  | .addr a => tumblerCost a.tumbler
  | .bool _ | .botAddr | .botNat => 0

theorem wNat_ne_nil (n : ℕ) : wNat n ≠ [] := List.append_ne_nil_of_left_ne_nil (varintBytes_ne_nil _) _

theorem wTumbler_ne_nil (t : Tumbler) : wTumbler t ≠ [] := List.append_ne_nil_of_left_ne_nil (varintBytes_ne_nil _) _

theorem wSpan_ne_nil (s : Span) : wSpan s ≠ [] := List.append_ne_nil_of_left_ne_nil (wTumbler_ne_nil _) _

/-- The canonical bytes are those that the writer writes. -/
theorem isCanonical_iff {bs : List UInt8} : DefReader.isCanonical bs = true ↔ bs = natBytes (leNat bs.reverse) := by
  constructor
  · intro h
    obtain ⟨b, rest, rfl⟩ : ∃ b rest, bs = b :: rest := by
      cases bs with
      | nil => cases h
      | cons b rest => exact ⟨b, rest, rfl⟩
    by_cases hzero : b = 0
    · subst hzero
      cases rest with
      | nil => rfl
      | cons => cases h
    · have hback : (b :: rest).reverse = ((b :: rest).reverse.map UInt8.toNat).map UInt8.ofNat := by
        rw [List.map_map]
        exact (List.map_id'' (fun x : UInt8 => UInt8.ofNat_toNat) _).symm
      have hlt : ∀ d ∈ (b :: rest).reverse.map UInt8.toNat, d < 256 := by
        intro d hd
        obtain ⟨x, -, rfl⟩ := List.mem_map.1 hd
        exact x.toNat_lt
      have hlast : ∀ hne : (b :: rest).reverse.map UInt8.toNat ≠ [], ((b :: rest).reverse.map UInt8.toNat).getLast hne ≠ 0 := by
        intro hne
        have hget : ((b :: rest).reverse.map UInt8.toNat).getLast hne = b.toNat := by simp
        rw [hget]
        exact fun hb => hzero (UInt8.toNat_inj.1 hb)
      have hdigits := Nat.digits_ofDigits 256 (by decide) _ hlt hlast
      have hnat : leNat (b :: rest).reverse = Nat.ofDigits 256 ((b :: rest).reverse.map UInt8.toNat) := by
        conv_lhs => rw [hback]
        exact leNat_map_ofNat hlt
      have hne : Nat.ofDigits 256 ((b :: rest).reverse.map UInt8.toNat) ≠ 0 := by
        intro heq
        rw [heq, Nat.digits_zero] at hdigits
        simp at hdigits
      rw [hnat, natBytes, if_neg hne, hdigits, ← hback, List.reverse_reverse]
  · intro h
    rw [h]
    generalize leNat bs.reverse = n
    rw [natBytes]
    split
    · rfl
    · next hn =>
      have hne : Nat.digits 256 n ≠ [] := Nat.digits_ne_nil_iff_ne_zero.2 hn
      obtain ⟨low, high, hlast⟩ := (List.eq_nil_or_concat (Nat.digits 256 n)).resolve_left hne
      rw [List.concat_eq_append] at hlast
      have hhigh : high ≠ 0 ∧ high < 256 := by
        refine ⟨?_, Nat.digits_lt_base (by decide) (m := n) (hlast ▸ List.mem_append_right low (List.mem_singleton_self high))⟩
        have hget := Nat.getLast_digit_ne_zero 256 hn
        simpa [hlast] using hget
      have hbyte : UInt8.ofNat high ≠ 0 := by
        intro heq
        have hnat := congrArg UInt8.toNat heq
        rw [UInt8.toNat_ofNat', Nat.mod_eq_of_lt hhigh.2] at hnat
        exact hhigh.1 hnat
      rw [hlast, List.map_append, List.reverse_append]
      cases (low.map UInt8.ofNat).reverse with
      | nil => rfl
      | cons => exact bne_iff_ne.2 hbyte

namespace DefReader

variable {limit : ℕ}

theorem exact_varid : Exact (varid : Metered limit _) wVarid (fun _ => 0) VarId.IsSubmitted := by
  refine exact_varint.narrow (g := VarId.index) (fun x v => ?_) (fun _ => rfl) fun _ => rfl
  rw [VarId.new]
  constructor
  · rintro ⟨hnew, -⟩
    split at hnew
    · cases hnew
    · next hlt =>
      cases hnew
      exact ⟨rfl, not_le.1 hlt⟩
  · rintro ⟨rfl, hlt⟩
    exact ⟨if_neg (not_le.2 hlt), hlt.trans (by decide)⟩

theorem exact_sort : Exact (sort : Metered limit _) (fun s => (sortTag s).toOption.toList) (fun _ => 0) (· ≠ .tup) where
  sound := by
    refine .tagged fun form hform => ?_
    simp only [List.mem_cons, List.not_mem_nil, or_false] at hform
    rcases hform with rfl | rfl | rfl | rfl | rfl | rfl | rfl | rfl <;>
      exact .pure ⟨by decide, rfl, rfl⟩
  answers := by
    intro s hs
    cases s with
    | tup => exact absurd rfl hs
    | _ => exact .tagged _ rfl (.pure _)

variable [small : Fact (limit < 2 ^ 60)]

include small in
theorem limit_lt : limit < 2 ^ 64 := small.out.trans (by decide)

theorem exact_nat : Exact (nat : Metered limit _) wNat natCost fun _ => True where
  sound := by
    refine exact_varint.then fun len _ => (sound_pay _).bind fun _ _ c hpay => (exact_take len).then fun bytes hlen =>
      (sound_ensure _).bind fun _ _ _ hgood => .pure ⟨trivial, ?_, ?_⟩
    · obtain ⟨rfl, -⟩ := hpay
      obtain ⟨hgood, rfl, -⟩ := hgood
      rw [wNat, ← isCanonical_iff.1 hgood, hlen, List.append_nil, List.append_nil, List.nil_append]
    · obtain ⟨-, rfl⟩ := hpay
      obtain ⟨hgood, -, rfl⟩ := hgood
      rw [natCost, ← isCanonical_iff.1 hgood, hlen]
      omega
  answers := by
    intro n _ rd rd' h
    have hcost := h.cost_le
    have hlt : (natBytes n).length < 2 ^ 64 := by
      have hsmall := small.out
      rw [natCost] at hcost
      omega
    have hgood : isCanonical (natBytes n) = true := by
      rw [isCanonical_iff, leNat_natBytes]
    have hback : leNat (natBytes n).reverse = n := leNat_natBytes n
    have hread : Metered.Answers (nat : Metered limit ℕ) (leNat (natBytes n).reverse) (wNat n) (natCost n) :=
      .of_eq ((exact_varint.answers _ hlt).bind ((answers_pay _).bind (((exact_take _).answers _ rfl).bind
        ((answers_ensure hgood).bind (.pure _))))) (by simp [wNat]) (by simp [natCost])
    rw [hback] at hread
    exact hread rd rd' h

theorem exact_tumbler : Exact (tumbler : Metered limit _) wTumbler tumblerCost fun _ => True := by
  refine (exact_nat.counted limit_lt wNat_ne_nil).narrow (g := Tumbler.comps) (fun comps t => ?_) (fun _ => rfl)
    fun _ => rfl
  rw [Tumbler.new]
  constructor
  · rintro ⟨hnew, -⟩
    split at hnew
    · cases hnew
      exact ⟨rfl, trivial⟩
    · cases hnew
  · rintro ⟨rfl, -⟩
    exact ⟨dif_pos t.nonempty, fun _ _ => trivial⟩

theorem exact_addr : Exact (addr : Metered limit _) wAddr (fun a => tumblerCost a.tumbler) fun _ => True := by
  refine exact_tumbler.narrow (g := Address.tumbler) (fun t a => ?_) (fun _ => rfl) fun _ => rfl
  rw [Outcome.toOption_eq_some_iff, validate_eq_ok_iff, eq_comm]

theorem exact_span : Exact (span : Metered limit _) wSpan spanCost fun _ => True := by
  have hboth : (span : Metered limit Span) = (do
      let start ← tumbler
      let width ← tumbler
      return (start, width)) >>= fun ends => ofOption (Span.new ends.1 ends.2).toOption := by
    simp only [span, bind_assoc, pure_bind]
  rw [hboth]
  refine (exact_tumbler.pair exact_tumbler).narrow (f := fun ends => (Span.new ends.1 ends.2).toOption)
    (g := fun s => (s.start, s.width)) (fun ends s => ?_) (fun _ => rfl) fun _ => rfl
  rw [Outcome.toOption_eq_some_iff, Span.new_eq_ok_iff, Prod.ext_iff, eq_comm, eq_comm (a := s.width)]
  exact ⟨fun h => ⟨h.1, trivial⟩, fun h => ⟨h.1, trivial, trivial⟩⟩

theorem exact_endset : Exact (endset : Metered limit _) wEndset endsetCost fun _ => True := by
  have hspan : Exact (span : Metered limit _) wSpan spanCost fun _ => True := exact_span
  refine (hspan.counted limit_lt wSpan_ne_nil).narrow (f := fun spans => some ⟨spans⟩) (g := Endset.spans)
    (fun spans e => ?_) (fun _ => rfl) fun _ => rfl
  rw [Option.some.injEq, Endset.ext_iff]
  exact and_congr_right' (by simp)

theorem exact_typeref : Exact (typeref : Metered limit _) wTyperef TypeRef.cost TypeRef.Fits where
  sound := by
    refine .tagged fun form hform => ?_
    fin_cases hform
    · exact exact_endset.then fun k _ => .pure ⟨trivial, by simp [wTyperef], rfl⟩
    · exact exact_varid.then fun v hv => .pure ⟨hv, by simp [wTyperef], rfl⟩
  answers := by
    rintro (k | v) hfits
    · exact .tagged 1 rfl (exact_endset.answers k trivial).map
    · exact .tagged 2 rfl (exact_varid.answers v hfits).map

theorem exact_lit : Exact (lit : Metered limit _) wLit Lit.cost fun _ => True where
  sound := by
    refine .tagged fun form hform => ?_
    fin_cases hform
    · exact .pure ⟨trivial, rfl, rfl⟩
    · exact .pure ⟨trivial, rfl, rfl⟩
    · exact exact_nat.then fun n _ => .pure ⟨trivial, by simp [wLit], rfl⟩
    · exact exact_addr.then fun a _ => .pure ⟨trivial, by simp [wLit], rfl⟩
    · exact .pure ⟨trivial, rfl, rfl⟩
    · exact .pure ⟨trivial, rfl, rfl⟩
  answers := by
    rintro l -
    cases l with
    | bool b => cases b <;> exact .tagged _ rfl (.pure _)
    | nat n => exact .tagged 3 rfl (exact_nat.answers n trivial).map
    | addr a => exact .tagged 4 rfl (exact_addr.answers a trivial).map
    | botAddr | botNat => exact .tagged _ rfl (.pure _)

end DefReader

def UnaryOp.cost : UnaryOp → ℕ
  | .keyed _ tr | .mapGet tr => tr.cost
  | .targetsKeyed | .isDoc | .isEmpty | .elems | .defined | .not => 0

def UnaryOp.Fits : UnaryOp → Prop
  | .keyed _ tr | .mapGet tr => tr.Fits
  | .targetsKeyed | .isDoc | .isEmpty | .elems | .defined | .not => True

def BinaryOp.cost : BinaryOp → ℕ
  | .isInChain tr => tr.cost
  | .addrEq | .prefixOf | .t1Lt | .setMem | .setEq | .natEq | .natLe | .natAdd => 0

def BinaryOp.Fits : BinaryOp → Prop
  | .isInChain tr => tr.Fits
  | .addrEq | .prefixOf | .t1Lt | .setMem | .setEq | .natEq | .natLe | .natAdd => True

mutual

/-- What the reader pays for a term. -/
@[simp] def Term.cost : Term → ℕ
  | .var _ | .tuple _ _ => 1
  | .lit l => 1 + l.cost
  | .members tr => 1 + tr.cost
  | .inCoverage _ e _ => 1 + e.cost
  | .unary op e => 1 + (op.cost + e.cost)
  | .binary op x y => 1 + (op.cost + (x.cost + y.cost))
  | .connective _ x y => 1 + (x.cost + y.cost)
  | .quantified _ _ d body | .bigUnion d _ body => 1 + (d.cost + body.cost)
  | .letIn _ bound body => 1 + (bound.cost + body.cost)
  | .ifSome opt _ thenTerm elseTerm => 1 + (opt.cost + (thenTerm.cost + elseTerm.cost))
  | .aggregate _ d => 1 + d.cost
  | .ref addr args => 1 + (tumblerCost addr.tumbler + (args.length + argsCost args))

@[simp] def argsCost : List Term → ℕ
  | [] => 0
  | t :: ts => t.cost + argsCost ts

@[simp] def Dom.cost : Dom → ℕ
  | .read _ tr => 1 + tr.cost
  | .linkDom | .reg => 1
  | .filter d _ pred => 1 + (d.cost + pred.cost)
  | .setTerm t => 1 + t.cost

end

mutual

/-- Every name is a submitted one, and every former has a level of its own. -/
@[simp] def Term.Fits : Term → (levels : ℕ) → Prop
  | .var v, n | .tuple _ v, n => 0 < n ∧ v.IsSubmitted
  | .lit _, n => 0 < n
  | .members tr, n => 0 < n ∧ tr.Fits
  | .inCoverage _ e v, n => 0 < n ∧ e.Fits (n - 1) ∧ v.IsSubmitted
  | .unary op e, n => 0 < n ∧ op.Fits ∧ e.Fits (n - 1)
  | .binary op x y, n => 0 < n ∧ op.Fits ∧ x.Fits (n - 1) ∧ y.Fits (n - 1)
  | .connective _ x y, n => 0 < n ∧ x.Fits (n - 1) ∧ y.Fits (n - 1)
  | .quantified _ var d body, n | .bigUnion d var body, n => 0 < n ∧ var.IsSubmitted ∧ d.Fits (n - 1) ∧ body.Fits (n - 1)
  | .letIn var bound body, n => 0 < n ∧ var.IsSubmitted ∧ bound.Fits (n - 1) ∧ body.Fits (n - 1)
  | .ifSome opt var thenTerm elseTerm, n =>
      0 < n ∧ var.IsSubmitted ∧ opt.Fits (n - 1) ∧ thenTerm.Fits (n - 1) ∧ elseTerm.Fits (n - 1)
  | .aggregate _ d, n => 0 < n ∧ d.Fits (n - 1)
  | .ref _ args, n => 0 < n ∧ argsFit args (n - 1)

@[simp] def argsFit : List Term → (levels : ℕ) → Prop
  | [], _ => True
  | t :: ts, n => t.Fits n ∧ argsFit ts n

@[simp] def Dom.Fits : Dom → (levels : ℕ) → Prop
  | .read _ tr, n => 0 < n ∧ tr.Fits
  | .linkDom, n | .reg, n => 0 < n
  | .filter d var pred, n => 0 < n ∧ var.IsSubmitted ∧ d.Fits (n - 1) ∧ pred.Fits (n - 1)
  | .setTerm t, n => 0 < n ∧ t.Fits (n - 1)

end

theorem wArgs_eq (ts : List Term) : wArgs ts = ts.flatMap wTerm := by
  induction ts with
  | nil => rfl
  | cons t ts ih => rw [wArgs, ih, List.flatMap_cons]

theorem argsCost_eq (ts : List Term) : argsCost ts = (ts.map Term.cost).sum := by
  induction ts with
  | nil => rfl
  | cons t ts ih => rw [argsCost, ih, List.map_cons, List.sum_cons]

theorem argsFit_iff {ts : List Term} {n : ℕ} : argsFit ts n ↔ ∀ t ∈ ts, t.Fits n := by
  induction ts with
  | nil => exact iff_of_true trivial (List.forall_mem_nil _)
  | cons t ts ih => rw [argsFit, ih, List.forall_mem_cons]

theorem wTerm_ne_nil (t : Term) : wTerm t ≠ [] := by
  cases t with
  | unary op e => cases op <;> exact List.cons_ne_nil _ _
  | binary op x y => cases op <;> exact List.cons_ne_nil _ _
  | _ => exact List.cons_ne_nil _ _

theorem Term.cost_pos (t : Term) : 0 < t.cost := by
  cases t <;> simp

theorem Dom.cost_pos (d : Dom) : 0 < d.cost := by
  cases d <;> simp

theorem Term.not_fits_zero (t : Term) : ¬ t.Fits 0 := by
  cases t <;> simp

theorem Dom.not_fits_zero (d : Dom) : ¬ d.Fits 0 := by
  cases d <;> simp

namespace DefReader

variable {limit : ℕ}

/-- The readers of a level below are exact. -/
structure Level (n : ℕ) (term : Metered limit Term) (dom : Metered limit Dom) : Prop where
  term : Exact term wTerm Term.cost (·.Fits n)
  dom : Exact dom wDom Dom.cost (·.Fits n)

section

variable {n : ℕ} {term : Metered limit Term} {dom : Metered limit Dom}

/-- A term, at its own level, whose own unit is paid for. -/
def Reads (n : ℕ) (t : Term) (bs : List UInt8) (c : ℕ) : Prop := t.Fits (n + 1) ∧ bs = wTerm t ∧ 1 + c = t.cost

theorem sound_unary (h : Level n term dom) (op : UnaryOp) (hop : op.Fits ∧ op.foot = [] ∧ op.cost = 0) :
    Sound (unary term op) fun t bs c => Reads n t (op.head ++ bs) c :=
  h.term.then fun e he => .pure
    ⟨⟨Nat.succ_pos n, hop.1, he⟩, by simp [hop.2.1], by simp [hop.2.2]⟩

theorem sound_binary (h : Level n term dom) (op : BinaryOp) (hop : op.Fits ∧ op.cost = 0) :
    Sound (binary term op) fun t bs c => Reads n t (op.head ++ bs) c :=
  h.term.then fun x hx => h.term.then fun y hy => .pure
    ⟨⟨Nat.succ_pos n, hop.1, hx, hy⟩, by simp, by simp [hop.2]⟩

theorem sound_tuple (r : TupleRead) : Sound (tuple r : Metered limit Term) fun t bs c => Reads n t (3 :: r.tag :: bs) c :=
  exact_varid.then fun v hv => .pure ⟨⟨Nat.succ_pos n, hv⟩, by simp, by simp⟩

theorem sound_inCoverage (h : Level n term dom) (slot : Slot) :
    Sound (inCoverage term slot) fun t bs c => Reads n t (3 :: slot.coverageTag :: bs) c :=
  h.term.then fun e he => exact_varid.then fun v hv => .pure
    ⟨⟨Nat.succ_pos n, he, hv⟩, by simp, by simp⟩

theorem sound_connective (h : Level n term dom) (op : Connective) :
    Sound (connective term op) fun t bs c => Reads n t (op.tag :: bs) c :=
  h.term.then fun x hx => h.term.then fun y hy => .pure
    ⟨⟨Nat.succ_pos n, hx, hy⟩, by simp, by simp⟩

theorem sound_quantified (h : Level n term dom) (q : Quantifier) :
    Sound (quantified term dom q) fun t bs c => Reads n t (q.tag :: bs) c :=
  exact_varid.then fun v hv => h.dom.then fun d hd => h.term.then fun body hbody => .pure
    ⟨⟨Nat.succ_pos n, hv, hd, hbody⟩, by simp, by simp⟩

theorem sound_aggregate (h : Level n term dom) (op : Aggregate) :
    Sound (aggregate dom op) fun t bs c => Reads n t (op.tag :: bs) c :=
  h.dom.then fun d hd => .pure ⟨⟨Nat.succ_pos n, hd⟩, by simp, by simp⟩

variable [Fact (limit < 2 ^ 60)]

theorem sound_keyed (h : Level n term dom) (r : KeyedRead) :
    Sound (keyed term r) fun t bs c => Reads n t (3 :: r.tag :: bs) c :=
  exact_typeref.then fun tr htr => h.term.then fun e he => .pure
    ⟨⟨Nat.succ_pos n, htr, he⟩, by simp [UnaryOp.head, UnaryOp.foot], by simp [UnaryOp.cost]⟩

theorem sound_atom (h : Level n term dom) : Sound (atom term) fun t bs c => Reads n t (3 :: bs) c := by
  refine .tagged fun form hform => ?_
  fin_cases hform
  · exact sound_keyed h .isK
  · exact exact_typeref.then fun tr htr => .pure ⟨⟨Nat.succ_pos n, htr⟩, by simp, by simp⟩
  · exact sound_keyed h .targetsOf
  · exact sound_keyed h .isFiltered
  · exact sound_keyed h .succs
  · exact sound_keyed h .chain
  · exact sound_keyed h .tip
  · exact exact_typeref.then fun tr htr => h.term.then fun x hx => h.term.then fun y hy => .pure
      ⟨⟨Nat.succ_pos n, htr, hx, hy⟩, by simp [BinaryOp.head], by simp [BinaryOp.cost]⟩
  · exact sound_keyed h .sourcesTo
  · exact sound_keyed h .targetOf
  · exact sound_unary h .targetsKeyed ⟨trivial, rfl, rfl⟩
  · exact sound_keyed h .age
  · exact sound_keyed h .stale
  · exact sound_unary h .isDoc ⟨trivial, rfl, rfl⟩
  · exact sound_tuple .addr
  · exact sound_tuple (.addrs .f)
  · exact sound_tuple (.addrs .g)
  · exact sound_inCoverage h .f
  · exact sound_inCoverage h .g

theorem sound_prim (h : Level n term dom) : Sound (prim term) fun t bs c => Reads n t (4 :: bs) c := by
  refine .tagged fun form hform => ?_
  fin_cases hform
  · exact sound_binary h .addrEq ⟨trivial, rfl⟩
  · exact sound_binary h .prefixOf ⟨trivial, rfl⟩
  · exact sound_binary h .t1Lt ⟨trivial, rfl⟩
  · exact sound_binary h .setMem ⟨trivial, rfl⟩
  · exact sound_binary h .setEq ⟨trivial, rfl⟩
  · exact sound_unary h .isEmpty ⟨trivial, rfl, rfl⟩
  · exact sound_unary h .elems ⟨trivial, rfl, rfl⟩
  · exact sound_binary h .natEq ⟨trivial, rfl⟩
  · exact sound_binary h .natLe ⟨trivial, rfl⟩
  · exact sound_binary h .natAdd ⟨trivial, rfl⟩
  · exact h.term.then fun e he => exact_typeref.then fun tr htr => .pure
      ⟨⟨Nat.succ_pos n, htr, he⟩, by simp [UnaryOp.head, UnaryOp.foot],
        by simp [UnaryOp.cost, Nat.add_comm]⟩
  · exact sound_unary h .defined ⟨trivial, rfl, rfl⟩

theorem sound_termForms (h : Level n term dom) : Sound (termForms term dom) (Reads n) := by
  refine .tagged fun form hform => ?_
  fin_cases hform
  · exact exact_varid.then fun v hv => .pure ⟨⟨Nat.succ_pos n, hv⟩, by simp, by simp⟩
  · exact exact_lit.then fun l _ => .pure ⟨Nat.succ_pos n, by simp, by simp⟩
  · exact sound_atom h
  · exact sound_prim h
  · exact sound_connective h .and
  · exact sound_connective h .or
  · exact sound_unary h .not ⟨trivial, rfl, rfl⟩
  · exact sound_connective h .implies
  · exact sound_connective h .iff
  · exact sound_quantified h .all
  · exact sound_quantified h .any
  · exact exact_varid.then fun v hv => h.term.then fun bound hbound => h.term.then fun body hbody => .pure
      ⟨⟨Nat.succ_pos n, hv, hbound, hbody⟩, by simp, by simp⟩
  · exact h.term.then fun opt hopt => exact_varid.then fun v hv => h.term.then fun then_ hthen =>
      h.term.then fun else_ helse => .pure
        ⟨⟨Nat.succ_pos n, hv, hopt, hthen, helse⟩, by simp, by simp⟩
  · exact sound_aggregate h .count
  · exact sound_aggregate h .maxT1
  · exact sound_aggregate h .minT1
  · exact h.dom.then fun d hd => exact_varid.then fun v hv => h.term.then fun body hbody => .pure
      ⟨⟨Nat.succ_pos n, hv, hd, hbody⟩, by simp, by simp⟩
  · exact sound_aggregate h .reflect
  · exact exact_addr.then fun a _ => (h.term.counted limit_lt wTerm_ne_nil).then fun args hargs => .pure
      ⟨⟨Nat.succ_pos n, argsFit_iff.2 hargs⟩, by simp [countedBytes, wArgs_eq],
        by simp [countedCost, argsCost_eq]⟩

/-- A domain, at its own level, whose own unit is paid for. -/
theorem sound_domForms (h : Level n term dom) :
    Sound (domForms term dom) fun d bs c => d.Fits (n + 1) ∧ bs = wDom d ∧ 1 + c = d.cost := by
  refine .tagged fun form hform => ?_
  have hread : ∀ r : DomRead, Sound (read r : Metered limit Dom) fun d bs c => d.Fits (n + 1) ∧ r.tag :: bs = wDom d ∧ 1 + c = d.cost :=
    fun r => exact_typeref.then fun tr htr => .pure ⟨⟨Nat.succ_pos n, htr⟩, by simp, by simp⟩
  fin_cases hform
  · exact hread .members
  · exact hread .active
  · exact hread .audit
  · exact .pure ⟨Nat.succ_pos n, rfl, rfl⟩
  · exact .pure ⟨Nat.succ_pos n, rfl, rfl⟩
  · exact h.dom.then fun d hd => exact_varid.then fun v hv => h.term.then fun pred hpred => .pure
      ⟨⟨Nat.succ_pos n, hv, hd, hpred⟩, by simp, by simp⟩
  · exact h.term.then fun t ht => .pure ⟨⟨Nat.succ_pos n, ht⟩, by simp, by simp⟩

theorem answers_unary (h : Level n term dom) (op : UnaryOp) {e : Term} (hop : op.Fits) (he : e.Fits n) :
    Metered.Answers (termForms term dom) (.unary op e) (wTerm (.unary op e)) (op.cost + e.cost) := by
  have hterm := h.term.answers e he
  cases op with
  | keyed r tr =>
    have hread : Metered.Answers (keyed term r) (.unary (.keyed r tr) e) (wTyperef tr ++ wTerm e) (tr.cost + e.cost) :=
      (exact_typeref.answers tr hop).bind hterm.map
    have hform : Metered.Answers (atom term) (.unary (.keyed r tr) e) (r.tag :: (wTyperef tr ++ wTerm e)) (tr.cost + e.cost) := by
      refine .tagged r.tag ?_ hread
      cases r <;> rfl
    exact .of_eq (.tagged 3 rfl hform) (by simp [UnaryOp.head, UnaryOp.foot]) rfl
  | targetsKeyed => exact .of_eq (.tagged 3 rfl (.tagged 11 rfl hterm.map)) (by simp [UnaryOp.head, UnaryOp.foot]) (by simp [UnaryOp.cost])
  | isDoc => exact .of_eq (.tagged 3 rfl (.tagged 14 rfl hterm.map)) (by simp [UnaryOp.head, UnaryOp.foot]) (by simp [UnaryOp.cost])
  | isEmpty => exact .of_eq (.tagged 4 rfl (.tagged 6 rfl hterm.map)) (by simp [UnaryOp.head, UnaryOp.foot]) (by simp [UnaryOp.cost])
  | elems => exact .of_eq (.tagged 4 rfl (.tagged 7 rfl hterm.map)) (by simp [UnaryOp.head, UnaryOp.foot]) (by simp [UnaryOp.cost])
  | mapGet tr =>
    exact .of_eq (.tagged 4 rfl (.tagged 11 rfl (hterm.bind (exact_typeref.answers tr hop).map)))
      (by simp [UnaryOp.head, UnaryOp.foot]) (by simp [UnaryOp.cost, Nat.add_comm])
  | defined => exact .of_eq (.tagged 4 rfl (.tagged 12 rfl hterm.map)) (by simp [UnaryOp.head, UnaryOp.foot]) (by simp [UnaryOp.cost])
  | not => exact .of_eq (.tagged 7 rfl hterm.map) (by simp [UnaryOp.head, UnaryOp.foot]) (by simp [UnaryOp.cost])

theorem answers_binary (h : Level n term dom) (op : BinaryOp) {x y : Term} (hop : op.Fits) (hx : x.Fits n) (hy : y.Fits n) :
    Metered.Answers (termForms term dom) (.binary op x y) (wTerm (.binary op x y)) (op.cost + (x.cost + y.cost)) := by
  have hboth : ∀ op, Metered.Answers (binary term op) (.binary op x y) (wTerm x ++ wTerm y) (x.cost + y.cost) :=
    fun op => (h.term.answers x hx).bind (h.term.answers y hy).map
  cases op with
  | isInChain tr =>
    exact .of_eq (.tagged 3 rfl (.tagged 8 rfl ((exact_typeref.answers tr hop).bind
      ((h.term.answers x hx).bind (h.term.answers y hy).map)))) (by simp [BinaryOp.head]) rfl
  | addrEq => exact .of_eq (.tagged 4 rfl (.tagged 1 rfl (hboth _))) (by simp [BinaryOp.head]) (Nat.zero_add _).symm
  | prefixOf => exact .of_eq (.tagged 4 rfl (.tagged 2 rfl (hboth _))) (by simp [BinaryOp.head]) (Nat.zero_add _).symm
  | t1Lt => exact .of_eq (.tagged 4 rfl (.tagged 3 rfl (hboth _))) (by simp [BinaryOp.head]) (Nat.zero_add _).symm
  | setMem => exact .of_eq (.tagged 4 rfl (.tagged 4 rfl (hboth _))) (by simp [BinaryOp.head]) (Nat.zero_add _).symm
  | setEq => exact .of_eq (.tagged 4 rfl (.tagged 5 rfl (hboth _))) (by simp [BinaryOp.head]) (Nat.zero_add _).symm
  | natEq => exact .of_eq (.tagged 4 rfl (.tagged 8 rfl (hboth _))) (by simp [BinaryOp.head]) (Nat.zero_add _).symm
  | natLe => exact .of_eq (.tagged 4 rfl (.tagged 9 rfl (hboth _))) (by simp [BinaryOp.head]) (Nat.zero_add _).symm
  | natAdd => exact .of_eq (.tagged 4 rfl (.tagged 10 rfl (hboth _))) (by simp [BinaryOp.head]) (Nat.zero_add _).symm

/-- A term that fits is read where its bytes stand, its own unit paid for. -/
theorem answers_termForms (h : Level n term dom) {t : Term} (ht : t.Fits (n + 1)) :
    Metered.Answers (termForms term dom) t (wTerm t) (t.cost - 1) := by
  cases t with
  | var v => exact .of_eq (.tagged 1 rfl (exact_varid.answers v ht.2).map) (by simp) (by simp)
  | lit l => exact .of_eq (.tagged 2 rfl (exact_lit.answers l trivial).map) (by simp) (by simp)
  | members tr =>
    exact .of_eq (.tagged 3 rfl (.tagged 2 rfl (exact_typeref.answers tr ht.2).map)) (by simp) (by simp)
  | tuple r v =>
    have hread : Metered.Answers (atom term) (.tuple r v) (r.tag :: wVarid v) 0 := by
      refine .tagged r.tag ?_ ((exact_varid.answers v ht.2).map (f := Term.tuple r))
      rcases r with _ | _ | _ <;> rfl
    exact .of_eq (.tagged 3 rfl hread) (by simp) (by simp)
  | inCoverage slot e v =>
    obtain ⟨-, he, hv⟩ := ht
    have hpair : Metered.Answers (inCoverage term slot) (.inCoverage slot e v) (wTerm e ++ wVarid v) (e.cost + 0) :=
      (h.term.answers e he).bind (exact_varid.answers v hv).map
    have hread : Metered.Answers (atom term) (.inCoverage slot e v) (slot.coverageTag :: (wTerm e ++ wVarid v)) (e.cost + 0) := by
      refine .tagged slot.coverageTag ?_ hpair
      cases slot <;> rfl
    exact .of_eq (.tagged 3 rfl hread) (by simp) (by simp)
  | unary op e => exact .of_eq (answers_unary h op ht.2.1 ht.2.2) rfl (by simp)
  | binary op x y => exact .of_eq (answers_binary h op ht.2.1 ht.2.2.1 ht.2.2.2) rfl (by simp)
  | connective op x y =>
    have hread : Metered.Answers (connective term op) (.connective op x y) (wTerm x ++ wTerm y) (x.cost + y.cost) :=
      (h.term.answers x ht.2.1).bind (h.term.answers y ht.2.2).map
    refine .of_eq (.tagged op.tag ?_ hread) (by simp) (by simp)
    cases op <;> rfl
  | quantified q var d body =>
    obtain ⟨-, hv, hd, hbody⟩ := ht
    have hread : Metered.Answers (quantified term dom q) (.quantified q var d body) (wVarid var ++ (wDom d ++ wTerm body))
        (0 + (d.cost + body.cost)) :=
      (exact_varid.answers var hv).bind ((h.dom.answers d hd).bind (h.term.answers body hbody).map)
    refine .of_eq (.tagged q.tag ?_ hread) (by simp) (by simp)
    cases q <;> rfl
  | letIn var bound body =>
    obtain ⟨-, hv, hbound, hbody⟩ := ht
    exact .of_eq (.tagged 12 rfl ((exact_varid.answers var hv).bind ((h.term.answers bound hbound).bind
      (h.term.answers body hbody).map))) (by simp) (by simp)
  | ifSome opt var thenTerm elseTerm =>
    obtain ⟨-, hv, hopt, hthen, helse⟩ := ht
    exact .of_eq (.tagged 13 rfl ((h.term.answers opt hopt).bind ((exact_varid.answers var hv).bind
      ((h.term.answers thenTerm hthen).bind (h.term.answers elseTerm helse).map)))) (by simp) (by simp)
  | aggregate op d =>
    have hread : Metered.Answers (aggregate dom op) (.aggregate op d) (wDom d) d.cost := (h.dom.answers d ht.2).map
    refine .of_eq (.tagged op.tag ?_ hread) (by simp) (by simp)
    cases op <;> rfl
  | bigUnion d var body =>
    obtain ⟨-, hv, hd, hbody⟩ := ht
    exact .of_eq (.tagged 17 rfl ((h.dom.answers d hd).bind ((exact_varid.answers var hv).bind
      (h.term.answers body hbody).map))) (by simp) (by simp)
  | ref a args =>
    have hargs := (h.term.counted limit_lt wTerm_ne_nil).answers args (argsFit_iff.1 ht.2)
    exact .of_eq (.tagged 19 rfl ((exact_addr.answers a trivial).bind hargs.map)) (by simp [countedBytes, wArgs_eq])
      (by simp [countedCost, argsCost_eq])

theorem answers_domForms (h : Level n term dom) {d : Dom} (hd : d.Fits (n + 1)) :
    Metered.Answers (domForms term dom) d (wDom d) (d.cost - 1) := by
  cases d with
  | read r tr =>
    have hread : Metered.Answers (read r : Metered limit Dom) (.read r tr) (wTyperef tr) tr.cost := (exact_typeref.answers tr hd.2).map
    refine .of_eq (.tagged r.tag ?_ hread) (by simp) (by simp)
    cases r <;> rfl
  | linkDom => exact .tagged 4 rfl (.pure _)
  | reg => exact .tagged 5 rfl (.pure _)
  | filter d var pred =>
    obtain ⟨-, hv, hd, hpred⟩ := hd
    exact .of_eq (.tagged 6 rfl ((h.dom.answers d hd).bind ((exact_varid.answers var hv).bind
      (h.term.answers pred hpred).map))) (by simp) (by simp)
  | setTerm t => exact .of_eq (.tagged 7 rfl (h.term.answers t hd.2).map) (by simp) (by simp)

end

/-- What has a level has one at least, and costs its own unit. -/
theorem exact_paid {α : Type} {p : Metered limit α} {enc : α → List UInt8} {cost : α → ℕ} {Fits : α → Prop}
    (hsound : Sound p fun a bs c => Fits a ∧ bs = enc a ∧ 1 + c = cost a)
    (hanswers : ∀ a, Fits a → Metered.Answers p a (enc a) (cost a - 1)) (hcost : ∀ a, 0 < cost a) :
    Exact (pay 1 >>= fun _ => p) enc cost Fits where
  sound := by
    refine (sound_pay 1).bind fun _ _ c hpay => hsound.imp fun a bs c' hread => ?_
    obtain ⟨rfl, rfl⟩ := hpay
    exact hread
  answers a ha := .of_eq ((answers_pay 1).bind (hanswers a ha)) (List.nil_append _) (Nat.add_sub_cancel' (hcost a))

/-- **The readers of every number of levels are exact.** -/
theorem exact_formers [Fact (limit < 2 ^ 60)] (n : ℕ) :
    Level n (formers n : Metered limit Term × Metered limit Dom).1 (formers n).2 := by
  induction n with
  | zero =>
    constructor
    · refine ⟨sound_fail, fun t ht => ?_⟩
      exact absurd ht t.not_fits_zero
    · refine ⟨sound_fail, fun d hd => ?_⟩
      exact absurd hd d.not_fits_zero
  | succ n ih =>
    constructor
    · exact exact_paid (sound_termForms ih) (fun t ht => answers_termForms ih ht) Term.cost_pos
    · exact exact_paid (sound_domForms ih) (fun d hd => answers_domForms ih hd) Dom.cost_pos

end DefReader

end Coordination
