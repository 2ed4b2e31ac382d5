import Skep.Coordination.DefCodec
import Skep.Coordination.Derive
import Skep.Library.Returns

/-!
# A stored definition has one spelling

A run of bytes is a definition's where the definition is within the reader's bounds, and then it is
the one run that the writer spells. What is written is read back first, and refused where it is not.

## Main results

- `Term.length_le`, `Term.cost_lt` — bytes and costs bound each other
- `Term.fits_iff` — what fits is nested within the levels, over submitted names
- `DefReader.signed_eq_some_iff` — a byte string is read as the parts that it spells
- `decode_one_spelling`, `storedRun_reads_back` — one spelling, and it is read back
-/

namespace Coordination

open Metered

theorem length_varintBytes_le (x : ℕ) : (varintBytes x).length ≤ x + 1 := by
  induction x using varintBytes.induct with
  | case1 x h =>
    rw [varintBytes, if_pos h]
    exact Nat.succ_le_succ (Nat.zero_le x)
  | case2 x h ih =>
    rw [varintBytes, if_neg h, List.length_cons]
    omega

theorem length_wVarid_le {v : VarId} (hv : v.IsSubmitted) : (wVarid v).length ≤ 5 := by
  have hlt : v.index < 128 ^ 5 := lt_of_lt_of_le hv (by decide)
  rw [wVarid]
  generalize v.index = x at hlt
  have hstep : ∀ (k x : ℕ), x < 128 ^ (k + 1) → (varintBytes x).length ≤ k + 1 := by
    intro k
    induction k with
    | zero =>
      intro x hx
      rw [varintBytes, if_pos (by simpa using hx)]
      exact le_rfl
    | succ k ih =>
      intro x hx
      rw [varintBytes]
      split
      · exact Nat.succ_le_succ (Nat.zero_le _)
      · exact Nat.succ_le_succ (ih _ (Nat.div_lt_of_lt_mul (by rwa [pow_succ, Nat.mul_comm] at hx)))
  exact hstep 4 x hlt

theorem length_countedBytes_le {α : Type} {enc : α → List UInt8} {cost : α → ℕ} {as : List α}
    (h : ∀ a ∈ as, (enc a).length ≤ 16 * cost a + 15) : (countedBytes enc as).length ≤ 16 * countedCost cost as + 1 := by
  have hcount := length_varintBytes_le as.length
  have hsum : (as.flatMap enc).length ≤ 16 * (as.map cost).sum + 15 * as.length := by
    clear hcount
    induction as with
    | nil => exact Nat.zero_le _
    | cons a as ih =>
      have hhead := h a List.mem_cons_self
      have htail := ih fun b hb => h b (List.mem_cons_of_mem a hb)
      rw [List.flatMap_cons, List.length_append, List.map_cons, List.sum_cons, List.length_cons]
      omega
  rw [countedBytes, countedCost, List.length_append]
  omega

theorem length_wNat_le (n : ℕ) : (wNat n).length ≤ 16 * natCost n + 1 := by
  have hcount := length_varintBytes_le (natBytes n).length
  rw [wNat, natCost, List.length_append]
  omega

theorem length_wTumbler_le (t : Tumbler) : (wTumbler t).length ≤ 16 * tumblerCost t + 1 :=
  length_countedBytes_le fun n _ => (length_wNat_le n).trans (by omega)

theorem length_wSpan_le (s : Span) : (wSpan s).length ≤ 16 * spanCost s + 2 := by
  have hstart := length_wTumbler_le s.start
  have hwidth := length_wTumbler_le s.width
  rw [wSpan, spanCost, List.length_append]
  omega

theorem length_wTyperef_le {tr : TypeRef} (htr : tr.Fits) : (wTyperef tr).length ≤ 16 * tr.cost + 6 := by
  cases tr with
  | concrete k =>
    have hk : (wEndset k).length ≤ 16 * endsetCost k + 1 :=
      length_countedBytes_le fun s _ => (length_wSpan_le s).trans (by omega)
    rw [wTyperef, TypeRef.cost, List.length_cons]
    omega
  | classVar v =>
    have hv := length_wVarid_le htr
    rw [wTyperef, TypeRef.cost, List.length_cons]
    omega

theorem length_wLit_le (l : Lit) : (wLit l).length ≤ 16 * l.cost + 2 := by
  cases l with
  | bool b => cases b <;> exact Nat.le_of_ble_eq_true rfl
  | nat n =>
    have hn := length_wNat_le n
    rw [wLit, Lit.cost, List.length_cons]
    omega
  | addr a =>
    have ha := length_wTumbler_le a.tumbler
    rw [wLit, Lit.cost, List.length_cons, wAddr]
    omega
  | botAddr | botNat => exact Nat.le_of_ble_eq_true rfl

theorem UnaryOp.length_le {op : UnaryOp} (hop : op.Fits) : op.head.length + op.foot.length ≤ 16 * op.cost + 8 := by
  cases op with
  | keyed r tr | mapGet tr =>
    have htr := length_wTyperef_le hop
    simp only [UnaryOp.head, UnaryOp.foot, UnaryOp.cost, List.length_cons, List.length_nil]
    omega
  | _ => exact Nat.le_of_ble_eq_true rfl

theorem BinaryOp.length_le {op : BinaryOp} (hop : op.Fits) : op.head.length ≤ 16 * op.cost + 8 := by
  cases op with
  | isInChain tr =>
    have htr := length_wTyperef_le hop
    simp only [BinaryOp.head, BinaryOp.cost, List.length_cons]
    omega
  | _ => exact Nat.le_of_ble_eq_true rfl

mutual

/-- What fits the budget is short: 16 bytes a unit. -/
theorem Term.length_le {n : ℕ} {t : Term} (h : t.Fits n) : (wTerm t).length ≤ 16 * t.cost := by
  cases t with
  | var v | tuple r v =>
    have hv := length_wVarid_le h.2
    simp only [wTerm, Term.cost, List.length_cons]
    omega
  | lit l =>
    have hl := length_wLit_le l
    simp only [wTerm, Term.cost, List.length_cons]
    omega
  | members tr =>
    have htr := length_wTyperef_le h.2
    simp only [wTerm, Term.cost, List.length_cons]
    omega
  | inCoverage slot e v =>
    have he := Term.length_le h.2.1
    have hv := length_wVarid_le h.2.2
    simp only [wTerm, Term.cost, List.length_cons, List.length_append]
    omega
  | unary op e =>
    have hop := UnaryOp.length_le h.2.1
    have he := Term.length_le h.2.2
    simp only [wTerm, Term.cost, List.length_append]
    omega
  | binary op x y =>
    have hop := BinaryOp.length_le h.2.1
    have hx := Term.length_le h.2.2.1
    have hy := Term.length_le h.2.2.2
    simp only [wTerm, Term.cost, List.length_append]
    omega
  | connective op x y =>
    have hx := Term.length_le h.2.1
    have hy := Term.length_le h.2.2
    simp only [wTerm, Term.cost, List.length_cons, List.length_append]
    omega
  | quantified q v d body | bigUnion d v body =>
    have hv := length_wVarid_le h.2.1
    have hd := Dom.length_le h.2.2.1
    have hbody := Term.length_le h.2.2.2
    simp only [wTerm, Term.cost, List.length_cons, List.length_append]
    omega
  | letIn v bound body =>
    have hv := length_wVarid_le h.2.1
    have hbound := Term.length_le h.2.2.1
    have hbody := Term.length_le h.2.2.2
    simp only [wTerm, Term.cost, List.length_cons, List.length_append]
    omega
  | ifSome opt v thenTerm elseTerm =>
    have hv := length_wVarid_le h.2.1
    have hopt := Term.length_le h.2.2.1
    have hthen := Term.length_le h.2.2.2.1
    have helse := Term.length_le h.2.2.2.2
    simp only [wTerm, Term.cost, List.length_cons, List.length_append]
    omega
  | aggregate op d =>
    have hd := Dom.length_le h.2
    simp only [wTerm, Term.cost, List.length_cons]
    omega
  | ref addr args =>
    have haddr := length_wTumbler_le addr.tumbler
    have hcount := length_varintBytes_le args.length
    have hargs := args_length_le h.2
    simp only [wTerm, Term.cost, List.length_cons, List.length_append, wAddr]
    omega

theorem args_length_le {n : ℕ} {ts : List Term} (h : argsFit ts n) : (wArgs ts).length ≤ 16 * argsCost ts := by
  cases ts with
  | nil => exact Nat.zero_le _
  | cons t ts =>
    have ht := Term.length_le h.1
    have hts := args_length_le h.2
    simp only [wArgs, argsCost, List.length_append]
    omega

theorem Dom.length_le {n : ℕ} {d : Dom} (h : d.Fits n) : (wDom d).length ≤ 16 * d.cost := by
  cases d with
  | read r tr =>
    have htr := length_wTyperef_le h.2
    simp only [wDom, Dom.cost, List.length_cons]
    omega
  | linkDom | reg => exact Nat.le_of_ble_eq_true rfl
  | filter d v pred =>
    have hv := length_wVarid_le h.2.1
    have hd := Dom.length_le h.2.2.1
    have hpred := Term.length_le h.2.2.2
    simp only [wDom, Dom.cost, List.length_cons, List.length_append]
    omega
  | setTerm t =>
    have ht := Term.length_le h.2
    simp only [wDom, Dom.cost, List.length_cons]
    omega

end

theorem length_varintBytes_pos (x : ℕ) : 0 < (varintBytes x).length := List.length_pos_of_ne_nil (varintBytes_ne_nil x)

theorem countedCost_lt_length {α : Type} {enc : α → List UInt8} {cost : α → ℕ} {as : List α}
    (h : ∀ a ∈ as, cost a < (enc a).length) : countedCost cost as < (countedBytes enc as).length := by
  have hcount := length_varintBytes_pos as.length
  have hsum : as.length + (as.map cost).sum ≤ (as.flatMap enc).length := by
    clear hcount
    induction as with
    | nil => exact le_rfl
    | cons a as ih =>
      have hhead := h a List.mem_cons_self
      have htail := ih fun b hb => h b (List.mem_cons_of_mem a hb)
      rw [List.flatMap_cons, List.length_append, List.map_cons, List.sum_cons, List.length_cons]
      omega
  rw [countedBytes, countedCost, List.length_append]
  omega

theorem natCost_lt_length (n : ℕ) : natCost n < (wNat n).length := by
  have hcount := length_varintBytes_pos (natBytes n).length
  rw [wNat, natCost, List.length_append]
  omega

theorem tumblerCost_lt_length (t : Tumbler) : tumblerCost t < (wTumbler t).length :=
  countedCost_lt_length fun n _ => natCost_lt_length n

theorem spanCost_lt_length (s : Span) : spanCost s < (wSpan s).length := by
  have hstart := tumblerCost_lt_length s.start
  have hwidth := tumblerCost_lt_length s.width
  rw [wSpan, spanCost, List.length_append]
  omega

theorem TypeRef.cost_lt_length (tr : TypeRef) : tr.cost < (wTyperef tr).length := by
  cases tr with
  | concrete k =>
    have hk : endsetCost k < (wEndset k).length := countedCost_lt_length fun s _ => spanCost_lt_length s
    rw [wTyperef, TypeRef.cost, List.length_cons]
    omega
  | classVar v => exact Nat.succ_pos _

theorem Lit.cost_lt_length (l : Lit) : l.cost < (wLit l).length := by
  cases l with
  | bool b => cases b <;> exact Nat.zero_lt_one
  | nat n =>
    have hn := natCost_lt_length n
    rw [wLit, Lit.cost, List.length_cons]
    omega
  | addr a =>
    have ha := tumblerCost_lt_length a.tumbler
    rw [wLit, Lit.cost, List.length_cons, wAddr]
    omega
  | botAddr | botNat => exact Nat.zero_lt_one

theorem UnaryOp.cost_lt_length (op : UnaryOp) : op.cost < op.head.length + op.foot.length := by
  cases op with
  | keyed r tr | mapGet tr =>
    have htr := tr.cost_lt_length
    simp only [UnaryOp.head, UnaryOp.foot, UnaryOp.cost, List.length_cons, List.length_nil]
    omega
  | _ => decide

theorem BinaryOp.cost_lt_length (op : BinaryOp) : op.cost < op.head.length := by
  cases op with
  | isInChain tr =>
    have htr := tr.cost_lt_length
    simp only [BinaryOp.head, BinaryOp.cost, List.length_cons]
    omega
  | _ => decide

mutual

/-- What is short fits a budget: a byte is charged for twice at most. -/
theorem Term.cost_lt (t : Term) : t.cost < 2 * (wTerm t).length := by
  cases t with
  | var v | tuple r v =>
    simp only [wTerm, Term.cost, List.length_cons]
    omega
  | lit l =>
    have hl := l.cost_lt_length
    simp only [wTerm, Term.cost, List.length_cons]
    omega
  | members tr =>
    have htr := tr.cost_lt_length
    simp only [wTerm, Term.cost, List.length_cons]
    omega
  | inCoverage slot e v =>
    have he := e.cost_lt
    simp only [wTerm, Term.cost, List.length_cons, List.length_append]
    omega
  | unary op e =>
    have hop := op.cost_lt_length
    have he := e.cost_lt
    simp only [wTerm, Term.cost, List.length_append]
    omega
  | binary op x y =>
    have hop := op.cost_lt_length
    have hx := x.cost_lt
    have hy := y.cost_lt
    simp only [wTerm, Term.cost, List.length_append]
    omega
  | connective op x y =>
    have hx := x.cost_lt
    have hy := y.cost_lt
    simp only [wTerm, Term.cost, List.length_cons, List.length_append]
    omega
  | quantified q v d body | bigUnion d v body =>
    have hd := d.cost_lt
    have hbody := body.cost_lt
    simp only [wTerm, Term.cost, List.length_cons, List.length_append]
    omega
  | letIn v bound body =>
    have hbound := bound.cost_lt
    have hbody := body.cost_lt
    simp only [wTerm, Term.cost, List.length_cons, List.length_append]
    omega
  | ifSome opt v thenTerm elseTerm =>
    have hopt := opt.cost_lt
    have hthen := thenTerm.cost_lt
    have helse := elseTerm.cost_lt
    simp only [wTerm, Term.cost, List.length_cons, List.length_append]
    omega
  | aggregate op d =>
    have hd := d.cost_lt
    simp only [wTerm, Term.cost, List.length_cons]
    omega
  | ref addr args =>
    have haddr := tumblerCost_lt_length addr.tumbler
    have hargs := args_cost_le args
    simp only [wTerm, Term.cost, List.length_cons, List.length_append, wAddr]
    omega

theorem args_cost_le (ts : List Term) : ts.length + argsCost ts ≤ 2 * (wArgs ts).length := by
  cases ts with
  | nil => exact le_rfl
  | cons t ts =>
    have ht := t.cost_lt
    have hts := args_cost_le ts
    simp only [wArgs, argsCost, List.length_append, List.length_cons]
    omega

theorem Dom.cost_lt (d : Dom) : d.cost < 2 * (wDom d).length := by
  cases d with
  | read r tr =>
    have htr := tr.cost_lt_length
    simp only [wDom, Dom.cost, List.length_cons]
    omega
  | linkDom | reg => decide
  | filter d v pred =>
    have hd := d.cost_lt
    have hpred := pred.cost_lt
    simp only [wDom, Dom.cost, List.length_cons, List.length_append]
    omega
  | setTerm t =>
    have ht := t.cost_lt
    simp only [wDom, Dom.cost, List.length_cons]
    omega

end

mutual

/-- Every class variable of a type position is a submitted name. -/
@[simp] def Term.TypesFit : Term → Prop
  | .var _ | .lit _ | .tuple _ _ => True
  | .members tr => tr.Fits
  | .inCoverage _ e _ => e.TypesFit
  | .unary op e => op.Fits ∧ e.TypesFit
  | .binary op x y => op.Fits ∧ x.TypesFit ∧ y.TypesFit
  | .connective _ x y => x.TypesFit ∧ y.TypesFit
  | .quantified _ _ d body | .bigUnion d _ body => d.TypesFit ∧ body.TypesFit
  | .letIn _ bound body => bound.TypesFit ∧ body.TypesFit
  | .ifSome opt _ thenTerm elseTerm => opt.TypesFit ∧ thenTerm.TypesFit ∧ elseTerm.TypesFit
  | .aggregate _ d => d.TypesFit
  | .ref _ args => argsTypesFit args

@[simp] def argsTypesFit : List Term → Prop
  | [] => True
  | t :: ts => t.TypesFit ∧ argsTypesFit ts

@[simp] def Dom.TypesFit : Dom → Prop
  | .read _ tr => tr.Fits
  | .linkDom | .reg => True
  | .filter d _ pred => d.TypesFit ∧ pred.TypesFit
  | .setTerm t => t.TypesFit

end

mutual

theorem Term.fits_iff {n : ℕ} {t : Term} :
    t.Fits n ↔ t.nesting < n ∧ t.Names VarId.IsSubmitted ∧ t.TypesFit := by
  cases t with
  | var v | lit l | members tr | tuple r v =>
    simp [Term.nesting, Term.Names]
  | inCoverage slot e v =>
    rw [Term.Fits, Term.fits_iff, Term.nesting, Term.Names, Term.TypesFit]
    grind
  | unary op e =>
    rw [Term.Fits, Term.fits_iff, Term.nesting, Term.Names, Term.TypesFit]
    grind
  | binary op x y =>
    rw [Term.Fits, Term.fits_iff (t := x), Term.fits_iff (t := y), Term.nesting, Term.Names, Term.TypesFit]
    grind
  | connective op x y =>
    rw [Term.Fits, Term.fits_iff (t := x), Term.fits_iff (t := y), Term.nesting, Term.Names, Term.TypesFit]
    grind
  | quantified q var d body | bigUnion d var body =>
    rw [Term.Fits, Dom.fits_iff, Term.fits_iff, Term.nesting, Term.Names, Term.TypesFit]
    grind
  | letIn var x body =>
    rw [Term.Fits, Term.fits_iff (t := x), Term.fits_iff (t := body), Term.nesting, Term.Names, Term.TypesFit]
    grind
  | ifSome opt var x y =>
    rw [Term.Fits, Term.fits_iff (t := opt), Term.fits_iff (t := x), Term.fits_iff (t := y), Term.nesting, Term.Names,
      Term.TypesFit]
    grind
  | aggregate op d =>
    rw [Term.Fits, Dom.fits_iff, Term.nesting, Term.Names, Term.TypesFit]
    grind
  | ref addr args =>
    rw [Term.Fits, Term.nesting, Term.Names, Term.TypesFit]
    exact argsFit_iff_names

theorem argsFit_iff_names {n : ℕ} {ts : List Term} :
    0 < n ∧ argsFit ts (n - 1) ↔ argsNesting ts < n ∧ argNames VarId.IsSubmitted ts ∧ argsTypesFit ts := by
  cases ts with
  | nil => simp [argsNesting, argNames]
  | cons t ts =>
    have hts : 0 < n ∧ argsFit ts (n - 1) ↔ argsNesting ts < n ∧ argNames VarId.IsSubmitted ts ∧ argsTypesFit ts :=
      argsFit_iff_names
    rw [argsFit, Term.fits_iff, argsNesting, argNames, argsTypesFit]
    grind

theorem Dom.fits_iff {n : ℕ} {d : Dom} :
    d.Fits n ↔ d.nesting < n ∧ d.Names VarId.IsSubmitted ∧ d.TypesFit := by
  cases d with
  | read r tr => simp [Dom.nesting, Dom.Names]
  | linkDom | reg => simp [Dom.nesting, Dom.Names]
  | filter d var pred =>
    rw [Dom.Fits, Dom.fits_iff, Term.fits_iff, Dom.nesting, Dom.Names, Dom.TypesFit]
    grind
  | setTerm t =>
    rw [Dom.Fits, Term.fits_iff, Dom.nesting, Dom.Names, Dom.TypesFit]
    grind

end

def wParam (p : VarId × ValueSort) : List UInt8 := wVarid p.1 ++ (sortTag p.2).toOption.toList

/-- What is stored behind the length. -/
def wPayload (params : List (VarId × ValueSort)) (body : Term) : List UInt8 := countedBytes wParam params ++ wTerm body

def wDefinition (params : List (VarId × ValueSort)) (body : Term) : List UInt8 :=
  varintBytes (wPayload params body).length ++ wPayload params body

/-- What a reader accepts: names that were submitted, parameters that have a tag, formers nested
within its levels, and a cost within its limit. -/
structure PartsFit (limit levels : ℕ) (params : List (VarId × ValueSort)) (body : Term) : Prop where
  named : ∀ p ∈ params, p.1.IsSubmitted ∧ p.2 ≠ .tup
  formed : body.Fits levels
  afforded : params.length + body.cost ≤ limit

section

variable {limit levels : ℕ} {params : List (VarId × ValueSort)} {body : Term}

variable (limit) in
theorem DefReader.exact_params [Fact (limit < 2 ^ 60)] (most : ℕ) :
    Exact (countedUpTo most do
      let v ← varid
      let s ← sort
      return (v, s) : Metered limit _) (countedBytes wParam) List.length fun ps =>
        ps.length ≤ most ∧ ∀ p ∈ ps, p.1.IsSubmitted ∧ p.2 ≠ .tup := by
  have hlimit : limit < 2 ^ 64 := limit_lt
  have h := (exact_varid.pair exact_sort).countedUpTo hlimit most
  have hcost : countedCost (fun _ : VarId × ValueSort => 0 + 0) = List.length := by
    funext ps
    simp [countedCost]
  rwa [hcost] at h

theorem length_wParam_le {p : VarId × ValueSort} (hp : p.1.IsSubmitted) : (wParam p).length ≤ 16 * 0 + 15 := by
  have hv := length_wVarid_le hp
  have hsort : (sortTag p.2).toOption.toList.length ≤ 1 := by
    cases p.2 <;> exact Nat.le_of_ble_eq_true rfl
  rw [wParam, List.length_append]
  omega

theorem length_le_wPayload : params.length ≤ (wPayload params body).length := by
  have hne : ∀ p, wParam p ≠ [] := fun p => List.append_ne_nil_of_left_ne_nil (varintBytes_ne_nil _) _
  have hparams := length_le_flatMap hne params
  rw [wPayload, countedBytes, List.length_append, List.length_append]
  omega

theorem PartsFit.length_le (h : PartsFit limit levels params body) : (wPayload params body).length ≤ 16 * limit + 1 := by
  have hparams : (countedBytes wParam params).length ≤ 16 * countedCost (fun _ => 0) params + 1 :=
    length_countedBytes_le fun p hp => length_wParam_le (h.named p hp).1
  have hbody := Term.length_le h.formed
  have hcost := h.afforded
  have hcount : countedCost (fun _ => 0) params = params.length := by simp [countedCost]
  rw [hcount] at hparams
  rw [wPayload, List.length_append]
  omega

/-- **A byte string is read as the parts that it spells.** -/
theorem DefReader.signed_eq_some_iff [small : Fact (limit < 2 ^ 60)] {bytes : List UInt8} :
    (DefReader.signed levels (.start limit bytes)).map Prod.fst = some (params, body) ↔
      PartsFit limit levels params body ∧ bytes = wDefinition params body := by
  have hforms : Exact (formers levels : Metered limit Term × Metered limit Dom).1 wTerm Term.cost (·.Fits levels) :=
    (DefReader.exact_formers levels).term
  constructor
  · intro h
    obtain ⟨⟨parts, rd⟩, hread, rfl⟩ := Option.map_eq_some_iff.1 h
    obtain ⟨len, rd₁, hlen, hread⟩ := bind_eq_some.1 hread
    obtain ⟨_, _, ⟨⟩, hread₁⟩ := bind_eq_some.1 hread
    obtain ⟨u, rd₁', hgood, hread₂⟩ := bind_eq_some.1 hread₁
    obtain ⟨hgood, rfl⟩ := ensure_eq_some.1 hgood
    obtain ⟨params', rd₂, hparams, hread₃⟩ := bind_eq_some.1 hread₂
    obtain ⟨body', rd₃, hbody, hread₄⟩ := bind_eq_some.1 hread₃
    obtain ⟨_, _, ⟨⟩, hread₅⟩ := bind_eq_some.1 hread₄
    obtain ⟨u', rd₃', hend, hread₆⟩ := bind_eq_some.1 hread₅
    obtain ⟨hend, rfl⟩ := ensure_eq_some.1 hend
    cases hread₆
    obtain ⟨-, -, ⟨-, rfl, rfl⟩, htook⟩ := exact_varint.sound _ _ _ hlen
    obtain ⟨-, -, ⟨⟨-, hnamed⟩, rfl, rfl⟩, htook₂⟩ := (DefReader.exact_params limit len).sound rd₁' params rd₂ hparams
    obtain ⟨-, -, ⟨hformed, rfl, rfl⟩, htook₃⟩ := hforms.sound _ _ _ hbody
    have hpayload := htook₂.trans htook₃
    have hrest : rd.rest = [] := List.length_eq_zero_iff.1 (beq_iff_eq.1 hend)
    have hpay : rd₁'.rest = wPayload params body := by
      rw [hpayload.rest, hrest, List.append_nil, wPayload]
    refine ⟨⟨hnamed, hformed, hpayload.cost_le⟩, ?_⟩
    rw [wDefinition, ← hpay, beq_iff_eq.1 hgood]
    exact htook.rest
  · rintro ⟨hfits, rfl⟩
    have hlt : (wPayload params body).length < 2 ^ 64 := by
      have hle := hfits.length_le
      have hsmall := small.out
      omega
    obtain ⟨fin, hfin, htook⟩ : ∃ fin : Rd limit, fin.rest = [] ∧
        Rd.Took (.start limit (wDefinition params body))
          (varintBytes (wPayload params body).length ++ (countedBytes wParam params ++ wTerm body))
          (0 + (params.length + body.cost)) fin :=
      ⟨⟨(wDefinition params body).length, [], 0 + (0 + (params.length + body.cost)), Nat.zero_le _,
        by simpa using hfits.afforded⟩, rfl, rfl, (List.append_nil _).symm, rfl⟩
    obtain ⟨rd₁, hlen, htook⟩ := htook.split
    obtain ⟨rd₂, hparams, hbody⟩ := htook.split
    have hpay : rd₁.rest.length = (wPayload params body).length := by
      rw [htook.rest, hfin, List.append_nil, wPayload]
    have hread : DefReader.signed levels (.start limit (wDefinition params body)) = some ((params, body), fin) := by
      refine bind_eq_some.2 ⟨_, rd₁, exact_varint.answers _ hlt _ _ hlen, ?_⟩
      refine bind_eq_some.2 ⟨_, rd₁, rfl, bind_eq_some.2 ⟨(), rd₁, ensure_eq_some.2 ⟨beq_iff_eq.2 hpay, rfl⟩, ?_⟩⟩
      refine bind_eq_some.2 ⟨params, rd₂, (DefReader.exact_params limit _).answers params ⟨length_le_wPayload, hfits.named⟩ _ _ hparams, ?_⟩
      refine bind_eq_some.2 ⟨body, _, hforms.answers body hfits.formed _ _ hbody, ?_⟩
      exact bind_eq_some.2 ⟨_, fin, rfl, bind_eq_some.2 ⟨(), fin, ensure_eq_some.2 ⟨by rw [hfin]; rfl, rfl⟩, rfl⟩⟩
    exact Option.map_eq_some_iff.2 ⟨_, hread, rfl⟩

end

instance : Fact (maxTermNodes < 2 ^ 60) := ⟨by decide⟩

theorem decodeParts_eq_some_iff {bytes : List UInt8} {params : List (VarId × ValueSort)} {body : Term} :
    decodeParts bytes = some (params, body) ↔
      PartsFit maxTermNodes (maxDepth + 1) params body ∧ bytes = wDefinition params body :=
  DefReader.signed_eq_some_iff

theorem PartsFit.submitted {limit levels : ℕ} {params : List (VarId × ValueSort)} {body : Term}
    (h : PartsFit limit levels params body) : (∀ p ∈ params, p.1.IsSubmitted) ∧ body.Names VarId.IsSubmitted :=
  ⟨fun p hp => (h.named p hp).1, (Term.fits_iff.1 h.formed).2.1⟩

theorem decodeParts_submitted {bytes : List UInt8} (parts : List (VarId × ValueSort) × Term)
    (h : decodeParts bytes = some parts) : (∀ p ∈ parts.1, p.1.IsSubmitted) ∧ parts.2.Names VarId.IsSubmitted :=
  (decodeParts_eq_some_iff.1 h).1.submitted

/-- The definition that a byte string spells, none where it is malformed. -/
def decode (bytes : List UInt8) : Option SignedTerm :=
  (decodeParts bytes).pmap (fun parts h => ⟨parts.1, parts.2, h⟩) decodeParts_submitted

/-- What the reader would refuse is not stored. -/
inductive Unstorable where
  | mk
  deriving DecidableEq, Repr

/-- The run that stores a checked definition. -/
def storedRun (term : TypedTerm) : Outcome Unstorable (List UInt8) := do
  let bytes ← (encode term.signed).mapErr Empty.elim
  match decode bytes with
  | some _ => return bytes
  | none => .err .mk

/-- The definitions that have a stored form. -/
def SignedTerm.Storable (s : SignedTerm) : Prop := PartsFit maxTermNodes (maxDepth + 1) s.params s.body

theorem SignedTerm.eq_iff {s s' : SignedTerm} : s = s' ↔ s.params = s'.params ∧ s.body = s'.body := by
  cases s
  cases s'
  rw [SignedTerm.mk.injEq]

theorem wParam_eq_ok_iff {p : VarId × ValueSort} {chunk : List UInt8} :
    (do
      let tag ← sortTag p.2
      return wVarid p.1 ++ [tag] : Outcome Empty (List UInt8)) = .ok chunk ↔ p.2 ≠ .tup ∧ chunk = wParam p := by
  obtain ⟨v, s⟩ := p
  cases s with
  | tup => exact iff_of_false (fun h => by cases h) fun h => h.1 rfl
  | _ => exact (Outcome.ok.injEq _ _).to_iff.trans (eq_comm.trans (iff_and_self.2 fun _ htup => by cases htup))

theorem encode_eq_ok_iff {s : SignedTerm} {bytes : List UInt8} :
    encode s = .ok bytes ↔ (∀ p ∈ s.params, p.2 ≠ .tup) ∧ bytes = wDefinition s.params s.body := by
  have hbytes : varintBytes (varintBytes s.params.length ++ ((s.params.map wParam).flatten ++ wTerm s.body)).length ++
      (varintBytes s.params.length ++ ((s.params.map wParam).flatten ++ wTerm s.body)) = wDefinition s.params s.body := by
    simp only [wDefinition, wPayload, countedBytes, List.flatMap_def, List.append_assoc]
  rw [encode, Outcome.bind_eq_ok_iff]
  constructor
  · rintro ⟨chunks, hchunks, hrun⟩
    obtain ⟨htags, rfl⟩ := (Outcome.mapM_eq_ok_iff fun _ _ => wParam_eq_ok_iff).1 hchunks
    exact ⟨htags, (Outcome.ok.inj hrun).symm.trans hbytes⟩
  · rintro ⟨htags, rfl⟩
    exact ⟨_, (Outcome.mapM_eq_ok_iff fun _ _ => wParam_eq_ok_iff).2 ⟨htags, rfl⟩, congrArg Outcome.ok hbytes⟩

theorem decode_eq_some_iff {bytes : List UInt8} {s : SignedTerm} :
    decode bytes = some s ↔ s.Storable ∧ bytes = wDefinition s.params s.body := by
  rw [decode, Option.pmap_eq_some_iff]
  constructor
  · rintro ⟨parts, _, hparts, rfl⟩
    exact decodeParts_eq_some_iff.1 hparts
  · intro h
    exact ⟨(s.params, s.body), _, decodeParts_eq_some_iff.2 h, rfl⟩

/-- **A byte string stores a definition where it is the definition's one spelling**, and the
definition is within the reader's bounds. -/
theorem decode_one_spelling (bytes : List UInt8) (s : SignedTerm) :
    decode bytes = some s ↔ s.Storable ∧ encode s = .ok bytes := by
  rw [decode_eq_some_iff, encode_eq_ok_iff]
  exact and_congr_right fun hfits => (and_iff_right fun p hp => (hfits.named p hp).2).symm

/-- The bytes of what is storable spell nothing else: a reader of more levels and a wider limit
reads both, and reads one. -/
theorem wDefinition_inj {params params' : List (VarId × ValueSort)} {body body' : Term}
    (hnames : ∀ p ∈ params, p.1.IsSubmitted ∧ p.2 ≠ .tup) (hbody : body.Names VarId.IsSubmitted) (htypes : body.TypesFit)
    (hfits : PartsFit maxTermNodes (maxDepth + 1) params' body') (h : wDefinition params body = wDefinition params' body') :
    params = params' ∧ body = body' := by
  have hlength : (wPayload params body).length ≤ 2 ^ 22 := by
    have hle := hfits.length_le
    have hcount := length_varintBytes_le (wPayload params' body').length
    have hsame := congrArg List.length h
    rw [wDefinition, wDefinition, List.length_append, List.length_append] at hsame
    rw [maxTermNodes] at hle
    omega
  have hcost : params.length + body.cost ≤ 2 ^ 24 := by
    have hparams : params.length ≤ (wPayload params body).length := length_le_wPayload
    have hterm := body.cost_lt
    rw [wPayload, List.length_append] at hlength hparams
    omega
  have hsmall : Fact (2 ^ 24 < 2 ^ 60) := ⟨by decide⟩
  have hread := DefReader.signed_eq_some_iff.2 (⟨⟨hnames, Term.fits_iff.2
    ⟨Nat.lt_add_right maxDepth (Nat.lt_succ_self body.nesting), hbody, htypes⟩, hcost⟩, rfl⟩ :
      PartsFit (2 ^ 24) (body.nesting + 1 + maxDepth) params body ∧ _)
  have hformed := Term.fits_iff.1 hfits.formed
  have hread' := DefReader.signed_eq_some_iff.2 (⟨⟨hfits.named, Term.fits_iff.2
    ⟨hformed.1.trans_le (by omega), hformed.2⟩, hfits.afforded.trans (by decide)⟩, h⟩ :
      PartsFit (2 ^ 24) (body.nesting + 1 + maxDepth) params' body' ∧ _)
  exact Prod.ext_iff.1 (Option.some.inj (hread.symm.trans hread'))

theorem checkSigned_signed {ch : Checker} {signed : SignedTerm} {depth : ℕ} {tt : TypedTerm}
    (h : checkSigned ch signed depth = .ok tt) : tt.signed = signed := by
  obtain ⟨⟨⟨⟩, s⟩, -, h⟩ := Outcome.bind_eq_ok_iff.1 h
  obtain ⟨⟨⟩, -, h⟩ := Outcome.bind_eq_ok_iff.1 h
  obtain ⟨⟨c, s'⟩, -, hout⟩ := Outcome.bind_eq_ok_iff.1 h
  cases hout
  rfl

/-- **What is stored is read back.** A checked definition whose class variables were submitted is
stored as the bytes that are read as it, and refused where it is past the reader's bounds. -/
theorem storedRun_reads_back (term : TypedTerm) (htypes : term.signed.body.TypesFit) :
    (∀ bytes, storedRun term = .ok bytes ↔ decode bytes = some term.signed) ∧
      (storedRun term = .err .mk ↔ (∀ p ∈ term.params, p.2 ≠ .tup) ∧ ¬ term.signed.Storable) := by
  have hback : ∀ bytes s, encode term.signed = .ok bytes → decode bytes = some s → s = term.signed := by
    intro bytes s hencode hdecode
    obtain ⟨htags, rfl⟩ := encode_eq_ok_iff.1 hencode
    obtain ⟨hfits, hsame⟩ := decode_eq_some_iff.1 hdecode
    have hsubmitted := term.signed.submitted
    exact (SignedTerm.eq_iff.2 (wDefinition_inj (fun p hp => ⟨hsubmitted.1 p hp, htags p hp⟩) hsubmitted.2 htypes
      hfits hsame)).symm
  refine ⟨fun bytes => ⟨fun h => ?_, fun h => ?_⟩, fun h => ?_, fun h => ?_⟩
  · obtain ⟨run, hrun, hread⟩ := Outcome.bind_eq_ok_iff.1 h
    rw [Outcome.mapErr_eq_ok_iff] at hrun
    cases hdecode : decode run with
    | none =>
      rw [hdecode] at hread
      cases hread
    | some s =>
      rw [hdecode] at hread
      cases hread
      rw [hdecode, hback _ s hrun hdecode]
  · obtain ⟨hfits, hbytes⟩ := decode_eq_some_iff.1 h
    have hencode := encode_eq_ok_iff.2 ⟨fun p hp => (hfits.named p hp).2, hbytes⟩
    exact Outcome.bind_eq_ok_iff.2 ⟨bytes, Outcome.mapErr_eq_ok_iff.2 hencode, by rw [h]; rfl⟩
  · obtain herr | ⟨run, hrun, hread⟩ := Outcome.bind_eq_err_iff.1 h
    · obtain ⟨e, -, -⟩ := Outcome.mapErr_eq_err_iff.1 herr
      cases e
    · rw [Outcome.mapErr_eq_ok_iff] at hrun
      obtain ⟨htags, hbytes⟩ := encode_eq_ok_iff.1 hrun
      refine ⟨htags, fun hfits => ?_⟩
      rw [decode_eq_some_iff.2 ⟨hfits, hbytes⟩] at hread
      cases hread
  · obtain ⟨htags, hnot⟩ := h
    have hencode := encode_eq_ok_iff.2 ⟨htags, rfl⟩
    refine Outcome.bind_eq_err_iff.2 (.inr ⟨_, Outcome.mapErr_eq_ok_iff.2 hencode, ?_⟩)
    cases hdecode : decode (wDefinition term.signed.params term.signed.body) with
    | none => rfl
    | some s =>
      obtain ⟨hfits, -⟩ := decode_eq_some_iff.1 hdecode
      rw [hback _ s hencode hdecode] at hfits
      exact absurd hfits hnot

/-- Whether some class marks the parameter. -/
private def marked : SignedTerm where
  params := [(⟨1⟩, .addr)]
  body := .quantified .any ⟨2⟩ .reg (.unary (.keyed .isK (.classVar ⟨2⟩)) (.var ⟨1⟩))
  submitted := by simp [Term.Names, Dom.Names, VarId.IsSubmitted, expansionNameBase]

/-- Whether the retired class is empty, asked `2 ^ n` times. -/
private def asked : ℕ → Term
  | 0 => .unary .isEmpty (.members (.concrete (TypeRegistry.build.reservedType .retired)))
  | n + 1 => .connective .and (asked n) (asked n)

private theorem cost_asked (n : ℕ) : (asked n).cost + 1 = 2 ^ n * 40 := by
  induction n with
  | zero => rfl
  | succ n ih =>
    rw [asked, Term.cost, pow_succ, mul_right_comm, ← ih]
    omega

private theorem names_asked (n : ℕ) : (asked n).Names VarId.IsSubmitted := by
  induction n with
  | zero => simp [asked, Term.Names]
  | succ n ih => exact ⟨ih, ih⟩

private theorem typesFit_asked (n : ℕ) : (asked n).TypesFit := by
  induction n with
  | zero => exact ⟨trivial, trivial⟩
  | succ n ih => exact ⟨ih, ih⟩

/-- The reader pays for each type what its addresses cost. -/
private def askedOften : TypedTerm where
  signed := ⟨[], asked 11, List.forall_mem_nil _, names_asked 11⟩
  result := .bool
  evaluable := asked 11
  refFree := true
  reach := 12

private def unresolved : Checker := ⟨⟨TypeRegistry.build⟩, fun _ _ => .error .undefined⟩

/-- A checked definition is stored, and one past what the reader affords is not. -/
theorem storedRun_reads_back_marked :
    (∃ term, checkSigned unresolved marked 0 = .ok term ∧
      storedRun term = .ok [12, 1, 1, 2, 11, 2, 5, 3, 1, 2, 2, 1, 1]) ∧
    storedRun askedOften = .err .mk := by
  have hmarked : (checkSigned unresolved marked 0).isOk = true := by decide +kernel
  obtain ⟨term, hterm⟩ := Outcome.isOk_iff.1 hmarked
  have hsigned : term.signed = marked := checkSigned_signed hterm
  refine ⟨⟨term, hterm, ?_⟩, ?_⟩
  · have htypes : marked.body.TypesFit := ⟨trivial, by
      simp [UnaryOp.Fits, TypeRef.Fits, VarId.IsSubmitted, expansionNameBase], trivial⟩
    refine ((storedRun_reads_back term (hsigned ▸ htypes)).1 _).2 ?_
    rw [hsigned]
    rfl
  · refine (storedRun_reads_back askedOften (typesFit_asked 11)).2.2 ⟨List.forall_mem_nil _, fun hstorable => ?_⟩
    have hafforded : 0 + (asked 11).cost ≤ maxTermNodes := hstorable.afforded
    have hcost := cost_asked 11
    rw [maxTermNodes] at hafforded
    omega

end Coordination
