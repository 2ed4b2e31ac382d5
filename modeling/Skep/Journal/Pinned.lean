import Skep.Journal.Scan
import Skep.Journal.Digests

/-!
# The commit chain pins the history

A chain value is a digest of the one before it and of everything its transaction
holds. Two journals whose links verify and which share a chain value share every
transaction up to it.

## Main results

- `Linked.take_eq` — a shared chain value is a shared prefix
- `walk_linked` — what a scan without a chain break commits is linked
- `chain_pins_history` — over any two journals
-/

namespace Journal

/-- The payloads of records before a tail of known length are determined. -/
theorem flatMap_payload_inj {rs ss : List LogRecord} (hr : ∀ r ∈ rs, (FramePayload.record r).Fits)
    (hs : ∀ r ∈ ss, (FramePayload.record r).Fits) {s t : List UInt8} (hlen : s.length = t.length)
    (h : rs.flatMap LogRecord.payload ++ s = ss.flatMap LogRecord.payload ++ t) :
    rs = ss ∧ s = t := by
  have hmap : ∀ l : List LogRecord,
      l.flatMap LogRecord.payload = (l.map FramePayload.record).flatMap FramePayload.codec.encode :=
    fun l => by
      rw [List.flatMap_map]
      rfl
  have hne : ∀ p : FramePayload, FramePayload.codec.encode p ≠ [] := by
    intro p hnil
    have hlength := congrArg List.length hnil
    cases p with
    | record r =>
      rw [show FramePayload.codec.encode (.record r) = r.payload from rfl, r.length_payload] at hlength
      simp [recordPayloadLen, recordPayloadOverhead] at hlength
    | marker m =>
      rw [show FramePayload.codec.encode (.marker m) = m.payload from rfl, m.length_payload] at hlength
      simp at hlength
  rw [hmap, hmap] at h
  obtain ⟨heq, hst⟩ := FramePayload.codec.flatMap_encode_inj hne
    (fun p hp => by
      obtain ⟨r, hmem, rfl⟩ := List.mem_map.1 hp
      exact hr r hmem)
    (fun p hp => by
      obtain ⟨r, hmem, rfl⟩ := List.mem_map.1 hp
      exact hs r hmem) hlen h
  refine ⟨List.map_injective_iff.2 (fun a b hab => ?_) heq, hst⟩
  cases hab
  rfl

theorem slotBytes_inj {alg alg' : ℕ} {sig sig' : List UInt8} (ha : alg < 256) (ha' : alg' < 256)
    (h : slotBytes alg sig = slotBytes alg' sig') : alg = alg' ∧ sig = sig' := by
  rw [slotBytes, slotBytes, List.append_assoc, List.append_assoc] at h
  obtain ⟨htag, hrest⟩ := List.append_inj h (by simp)
  obtain ⟨-, hsig⟩ := List.append_inj hrest (by simp)
  have := congrArg leNat htag
  rw [leNat_leBytes (by simpa using ha), leNat_leBytes (by simpa using ha')] at this
  exact ⟨this, hsig⟩

namespace CommittedTxn

/-- The record frames of the transaction. -/
def logRecords (t : CommittedTxn) : List LogRecord := t.records.map fun r => ⟨r.1, t.marker.txn, r.2⟩

/-- The bytes the transaction's link hashes, after the chain value `prev`. -/
def preimage (H : Hashes) (prev : Bytes32) (t : CommittedTxn) : List UInt8 :=
  ChainLink.preimage ⟨prev.1 ++ t.logRecords.flatMap LogRecord.payload⟩ t.marker.txn t.marker.lastSeq
    t.marker.recordsChecksum t.marker.salt (slotDigest H t.marker.sigAlg t.marker.sig)

/-- The frames' numbers are inside their widths. -/
structure Fits (t : CommittedTxn) : Prop where
  marker : (FramePayload.marker t.marker).Fits
  records : ∀ r ∈ t.logRecords, (FramePayload.record r).Fits

/-- A preimage spells the value before it and the transaction, its chain and slot apart. -/
theorem preimage_inj {H : Hashes} {prev prev' : Bytes32} {t t' : CommittedTxn} (ht : t.Fits)
    (ht' : t'.Fits) (h : t.preimage H prev = t'.preimage H prev') :
    prev = prev' ∧ t.records = t'.records ∧ t.marker.txn = t'.marker.txn ∧
      t.marker.lastSeq = t'.marker.lastSeq ∧ t.marker.recordsChecksum = t'.marker.recordsChecksum ∧
      t.marker.salt = t'.marker.salt ∧
      slotDigest H t.marker.sigAlg t.marker.sig = slotDigest H t'.marker.sigAlg t'.marker.sig := by
  obtain ⟨⟨hfirst, hlast, hsum, -⟩, -⟩ := FramePayload.fits_marker.1 ht.marker
  obtain ⟨⟨hfirst', hlast', hsum', -⟩, -⟩ := FramePayload.fits_marker.1 ht'.marker
  simp only [preimage, ChainLink.preimage, List.append_assoc] at h
  obtain ⟨hprev, h⟩ := List.append_inj h (by rw [prev.2, prev'.2])
  have hwidth : ∀ b : Bytes32, b.1.length = 32 := fun b => b.2
  obtain ⟨hrecords, h⟩ := flatMap_payload_inj ht.records ht'.records
    (by simp only [List.length_append, length_leBytes, hwidth]) h
  obtain ⟨htxn, h⟩ := List.append_inj h (by simp)
  obtain ⟨hseq, h⟩ := List.append_inj h (by simp)
  obtain ⟨hchecksum, h⟩ := List.append_inj h (by simp)
  obtain ⟨hsalt, hslot⟩ := List.append_inj h (by rw [t.marker.salt.2, t'.marker.salt.2])
  have hnat : ∀ {w a b : ℕ}, a < 256 ^ w → b < 256 ^ w → leBytes w a = leBytes w b → a = b := by
    intro w a b ha hb heq
    have := congrArg leNat heq
    rwa [leNat_leBytes ha, leNat_leBytes hb] at this
  have htxn' : t.marker.txn = t'.marker.txn := by
    have := hnat hfirst hfirst' htxn
    cases hm : t.marker.txn
    cases hm' : t'.marker.txn
    rw [hm, hm'] at this
    exact congrArg Txn.mk this
  refine ⟨Subtype.ext hprev, ?_, htxn', hnat hlast hlast' hseq, hnat hsum hsum' hchecksum,
    Subtype.ext hsalt, Subtype.ext hslot⟩
  have := congrArg (List.map fun r : LogRecord => (r.seq, r.bytes)) hrecords
  simpa [logRecords, List.map_map, Function.comp_def] using this

end CommittedTxn

/-- The chain value the transaction at `i` follows. -/
def chainBefore (base : Bytes32) (ts : List CommittedTxn) : ℕ → Bytes32
  | 0 => base
  | i + 1 => (ts[i]?.map fun t => t.marker.chain).getD base

/-- Every link verifies, from the base's chain value on. -/
def Linked (H : Hashes) (base : Bytes32) (ts : List CommittedTxn) : Prop :=
  ∀ (i : ℕ) (t : CommittedTxn), ts[i]? = some t →
    t.marker.chain = H.sha256 (t.preimage H (chainBefore base ts i))

/-- What verifying the links hashes: each preimage and each slot. -/
def Hashed (H : Hashes) (base : Bytes32) (ts : List CommittedTxn) (x : List UInt8) : Prop :=
  ∃ (i : ℕ) (t : CommittedTxn), ts[i]? = some t ∧
    (x = t.preimage H (chainBefore base ts i) ∨ x = slotBytes t.marker.sigAlg t.marker.sig)

/-- SHA-256 taken as injective on some inputs, the chain's first value being none of
its values there. -/
structure Hashes.InjectiveOn (H : Hashes) (P : List UInt8 → Prop) : Prop where
  injective : ∀ x y, P x → P y → H.sha256 x = H.sha256 y → x = y
  genesis : ∀ x, P x → H.sha256 x ≠ chainGenesis

section Linked

variable {H : Hashes} {ts us : List CommittedTxn}

/-- Transactions of one chain value follow one chain value, and are one. -/
theorem Linked.eq_of_chain (ht : Linked H chainGenesis ts) (hu : Linked H chainGenesis us)
    (hft : ∀ t ∈ ts, t.Fits) (hfu : ∀ u ∈ us, u.Fits)
    (hsha : H.InjectiveOn fun x => Hashed H chainGenesis ts x ∨ Hashed H chainGenesis us x)
    {i j : ℕ} {t u : CommittedTxn} (hi : ts[i]? = some t) (hj : us[j]? = some u)
    (h : t.marker.chain = u.marker.chain) :
    t = u ∧ chainBefore chainGenesis ts i = chainBefore chainGenesis us j := by
  have hfits := hft t (List.mem_of_getElem? hi)
  have hfits' := hfu u (List.mem_of_getElem? hj)
  obtain ⟨⟨-, -, -, -, -, halg, -⟩, -⟩ := FramePayload.fits_marker.1 hfits.marker
  obtain ⟨⟨-, -, -, -, -, halg', -⟩, -⟩ := FramePayload.fits_marker.1 hfits'.marker
  have hpre := hsha.injective _ _ (.inl ⟨i, t, hi, .inl rfl⟩) (.inr ⟨j, u, hj, .inl rfl⟩)
    (by rw [← ht i t hi, ← hu j u hj, h])
  obtain ⟨hprev, hrecords, htxn, hlast, hsum, hsalt, hslot⟩ :=
    CommittedTxn.preimage_inj hfits hfits' hpre
  obtain ⟨halg, hsig⟩ := slotBytes_inj halg halg' (hsha.injective _ _ (.inl ⟨i, t, hi, .inr rfl⟩)
    (.inr ⟨j, u, hj, .inr rfl⟩) hslot)
  refine ⟨?_, hprev⟩
  obtain ⟨⟨txn, last, sum, salt, chain, alg, sig⟩, records⟩ := t
  obtain ⟨⟨txn', last', sum', salt', chain', alg', sig'⟩, records'⟩ := u
  simp only at h hrecords htxn hlast hsum hsalt halg hsig
  rw [h, hrecords, htxn, hlast, hsum, hsalt, halg, hsig]

/-- A shared chain value is a shared prefix. -/
theorem Linked.take_eq (ht : Linked H chainGenesis ts) (hu : Linked H chainGenesis us)
    (hft : ∀ t ∈ ts, t.Fits) (hfu : ∀ u ∈ us, u.Fits)
    (hsha : H.InjectiveOn fun x => Hashed H chainGenesis ts x ∨ Hashed H chainGenesis us x)
    {i j : ℕ} {t u : CommittedTxn} (hi : ts[i]? = some t) (hj : us[j]? = some u)
    (h : t.marker.chain = u.marker.chain) : ts.take (i + 1) = us.take (j + 1) := by
  have hprior : ∀ {l : List CommittedTxn} {k : ℕ} {x : CommittedTxn}, l[k + 1]? = some x →
      ∃ y, l[k]? = some y ∧ chainBefore chainGenesis l (k + 1) = y.marker.chain := by
    intro l k x hx
    obtain ⟨hlt, -⟩ := List.getElem?_eq_some_iff.1 hx
    have hget : l[k]? = some l[k] := List.getElem?_eq_getElem (by omega)
    exact ⟨_, hget, by rw [chainBefore, hget]; rfl⟩
  induction i generalizing j t u with
  | zero =>
    obtain ⟨rfl, hprev⟩ := ht.eq_of_chain hu hft hfu hsha hi hj h
    cases j with
    | zero => rw [List.take_add_one, List.take_add_one, hi, hj, List.take_zero, List.take_zero]
    | succ j =>
      -- the transaction before `u` would hash to the chain's first value
      obtain ⟨y, hy, hbefore⟩ := hprior hj
      refine absurd ?_ (hsha.genesis _ (.inr ⟨j, y, hy, .inl rfl⟩))
      rw [← hu j y hy, ← hbefore, ← hprev]
      rfl
  | succ i ih =>
    obtain ⟨rfl, hprev⟩ := ht.eq_of_chain hu hft hfu hsha hi hj h
    obtain ⟨x, hx, hbefore⟩ := hprior hi
    cases j with
    | zero =>
      refine absurd ?_ (hsha.genesis _ (.inl ⟨i, x, hx, .inl rfl⟩))
      rw [← ht i x hx, ← hbefore, hprev]
      rfl
    | succ j =>
      obtain ⟨y, hy, hbefore'⟩ := hprior hj
      rw [hbefore, hbefore'] at hprev
      rw [List.take_add_one, List.take_add_one (l := us), hi, hj, ih hx hy hprev]

end Linked

/-- A group has streamed these records, from a chain value on. -/
structure PendingTxn.Streams (group : PendingTxn) (prev : Bytes32) (rs : List LogRecord) : Prop where
  link : group.link.streamed = prev.1 ++ rs.flatMap LogRecord.payload
  txn : ∀ r ∈ rs, r.txn = group.txn
  fits : ∀ r ∈ rs, (FramePayload.record r).Fits
  records : group.ordered = true → group.oversize = false →
    group.records = rs.map fun r => ⟨r.seq, r.bytes, r.seq⟩

theorem PendingTxn.Streams.push {H : Hashes} {group : PendingTxn} {prev : Bytes32}
    {rs : List LogRecord} (h : group.Streams prev rs) {r : LogRecord} (htxn : r.txn = group.txn)
    (hfits : (FramePayload.record r).Fits) :
    (group.push H r r.payload).Streams prev (rs ++ [r]) := by
  refine ⟨?_, fun x hx => ?_, fun x hx => ?_, fun hordered hsize => ?_⟩
  · simp [PendingTxn.push, ChainLink.addPayload, h.link]
  · rcases List.mem_append.1 hx with hx | hx
    · exact h.txn x hx
    · rwa [List.mem_singleton.1 hx]
  · rcases List.mem_append.1 hx with hx | hx
    · exact h.fits x hx
    · rwa [List.mem_singleton.1 hx]
  · simp only [PendingTxn.push] at hordered hsize ⊢
    have hold : group.ordered = true := (Bool.and_eq_true _ _ ▸ hordered).1
    have hroom : group.oversize = false := (Bool.or_eq_false_iff.1 hsize).1
    rw [hordered, hsize, h.records hold hroom]
    simp

/-- What holds of the walk: the links of what it has committed, and of the open group. -/
structure Walk.Chained (H : Hashes) (base : Bytes32) (w : Walk) : Prop where
  linked : w.outcome.chainBreak = none → Linked H base w.commits
  head : w.outcome.chainHead = chainBefore base w.commits w.commits.length
  fits : ∀ t ∈ w.commits, t.Fits
  pending : ∀ group ∈ w.pending, ∃ rs, group.Streams w.outcome.chainHead rs

namespace Walk

/-- What every frame and every bad byte keep, a segment keeps. -/
theorem overBytes_induct {H : Hashes} {segs : List Segment} {P : Walk → Prop}
    (hframe : ∀ w place payload, P w → P (onFrame H segs w place payload))
    (hrun : ∀ w place, P w → P (beginRun w place)) {budget spent : ℕ} {place : Place} {skip : ℕ}
    {bs : List UInt8} {w w' : Walk} (hw : P w)
    (h : overBytes H segs budget spent place skip bs w = .ok w') : P w' := by
  induction bs generalizing spent place skip w with
  | nil =>
    cases skip <;> (cases h; exact hw)
  | cons b bs ih =>
    cases skip with
    | succ skip => exact ih hw h
    | zero =>
      rw [overBytes] at h
      split at h
      · exact ih (hframe _ _ _ hw) h
      · split at h
        · cases h
        · exact ih (hrun _ _ hw) h

/-- What every frame and every bad byte keep, a whole walk keeps. -/
theorem walk_induct {H : Hashes} {segs : List Segment} {P : Walk → Prop}
    (hframe : ∀ w place payload, P w → P (onFrame H segs w place payload))
    (hrun : ∀ w place, P w → P (beginRun w place)) (hfinish : ∀ w scanned, P w → P (finish segs scanned w))
    {sLoad : ℕ} {collect : Collect} {chainAtBase : Bytes32} (hstart : P (start sLoad collect chainAtBase))
    {w : Walk} (h : walk H segs sLoad collect chainAtBase = .ok w) : P w := by
  simp only [walk, Outcome.bind_eq_ok_iff, Outcome.pure_eq, Outcome.ok.injEq] at h
  obtain ⟨last, hfold, rfl⟩ := h
  refine hfinish _ _ ?_
  generalize scannedAbove segs sLoad = scanned at hfold
  generalize start sLoad collect chainAtBase = w at hstart hfold
  induction scanned generalizing w with
  | nil =>
    cases hfold
    exact hstart
  | cons s scanned ih =>
    rw [List.foldlM_cons, Outcome.bind_eq_ok_iff] at hfold
    obtain ⟨mid, hmid, hrest⟩ := hfold
    refine ih _ ?_ hrest
    rw [overSegment] at hmid
    split at hmid
    · cases hmid
    · exact overBytes_induct hframe hrun hstart hmid

theorem land_eq (segs : List Segment) (w : Walk) (place : Place) (ending : RunEnd) :
    ∃ runs, w.land segs place ending =
      { w with runBegan := none, outcome.runs := runs } := by
  rw [land]
  split
  · next hnone =>
    refine ⟨w.outcome.runs, ?_⟩
    rw [← hnone]
  · exact ⟨_, rfl⟩

end Walk

section Chained

variable {H : Hashes} {segs : List Segment} {base : Bytes32} {w : Walk} {place : Place}

theorem Walk.Chained.land (h : w.Chained H base) (ending : RunEnd) :
    (w.land segs place ending).Chained H base := by
  obtain ⟨runs, heq⟩ := Walk.land_eq segs w place ending
  rw [heq]
  exact ⟨h.linked, h.head, h.fits, h.pending⟩

theorem Walk.Chained.beginRun (h : w.Chained H base) : (w.beginRun place).Chained H base := by
  refine ⟨h.linked, h.head, h.fits, fun group hgroup => ?_⟩
  obtain ⟨group', hgroup', rfl⟩ := Option.map_eq_some_iff.1 hgroup
  obtain ⟨rs, hrs⟩ := h.pending group' hgroup'
  exact ⟨rs, hrs.link, hrs.txn, hrs.fits, hrs.records⟩

/-- A group with nothing in it has streamed nothing. -/
theorem PendingTxn.streams_start (txn : Txn) (prev : Bytes32) : (start txn prev).Streams prev [] :=
  ⟨(List.append_nil _).symm, fun _ hr => (nomatch hr), fun _ hr => (nomatch hr), fun _ _ => rfl⟩

theorem PendingTxn.Streams.unclean {group : PendingTxn} {prev : Bytes32} {rs : List LogRecord}
    (h : group.Streams prev rs) (clean : Bool) : PendingTxn.Streams { group with clean } prev rs :=
  ⟨h.link, h.txn, h.fits, h.records⟩

theorem Walk.Chained.onRecord (h : w.Chained H base) {record : LogRecord}
    (hfits : (FramePayload.record record).Fits) :
    (w.onRecord H segs place record record.payload).Chained H base := by
  have hland : (w.land segs place (.landedOnRecord record.seq)).Chained H base := h.land _
  obtain ⟨runs, heq⟩ := Walk.land_eq segs w place (.landedOnRecord record.seq)
  refine ⟨hland.linked, hland.head, hland.fits, fun group hgroup => ?_⟩
  cases hgroup
  rw [Walk.onRecord, heq]
  -- the group is the open one, or one opened here
  cases hopen : w.pending.filter fun group => group.txn == record.txn with
  | none =>
    exact ⟨_, ((PendingTxn.streams_start record.txn _).unclean _).push rfl hfits⟩
  | some group =>
    obtain ⟨hpending, htxn⟩ := Option.filter_eq_some_iff.1 hopen
    obtain ⟨rs, hrs⟩ := h.pending group hpending
    exact ⟨_, (hrs.unclean _).push (beq_iff_eq.1 htxn).symm hfits⟩

theorem Linked.concat {ts : List CommittedTxn} {t : CommittedTxn} (h : Linked H base ts)
    (ht : t.marker.chain = H.sha256 (t.preimage H (chainBefore base ts ts.length))) :
    Linked H base (ts ++ [t]) := by
  have hbefore : ∀ i ≤ ts.length, chainBefore base (ts ++ [t]) i = chainBefore base ts i := by
    intro i hi
    cases i with
    | zero => rfl
    | succ i => rw [chainBefore, chainBefore, List.getElem?_append_left (by omega)]
  intro i x hx
  by_cases hi : i < ts.length
  · rw [List.getElem?_append_left hi] at hx
    rw [hbefore i hi.le]
    exact h i x hx
  · obtain ⟨hlt, -⟩ := List.getElem?_eq_some_iff.1 hx
    rw [List.length_append, List.length_singleton] at hlt
    obtain rfl : i = ts.length := by omega
    rw [List.getElem?_concat_length, Option.some.injEq] at hx
    rw [← hx, hbefore _ le_rfl]
    exact ht

/-- What a committed group's link hashes is its transaction's preimage. -/
theorem PendingTxn.Streams.recomputedChain {group : PendingTxn} {prev : Bytes32}
    {rs : List LogRecord} (h : group.Streams prev rs) {marker : Marker} (htxn : group.txn = marker.txn)
    (hcommits : group.commits marker = true) :
    group.recomputedChain H marker = H.sha256 (CommittedTxn.preimage H prev
      ⟨marker, group.records.map fun entry => (entry.seq, entry.bytes)⟩) ∧
    CommittedTxn.logRecords ⟨marker, group.records.map fun entry => (entry.seq, entry.bytes)⟩ = rs := by
  simp only [PendingTxn.commits, Bool.and_eq_true, Bool.not_eq_true'] at hcommits
  obtain ⟨⟨⟨hordered, hsize⟩, -⟩, -⟩ := hcommits
  have hrs : CommittedTxn.logRecords
      ⟨marker, group.records.map fun entry => (entry.seq, entry.bytes)⟩ = rs := by
    rw [CommittedTxn.logRecords, h.records hordered hsize, List.map_map, List.map_map]
    conv_rhs => rw [← List.map_id rs]
    refine List.map_congr_left fun r hr => ?_
    have := h.txn r hr
    cases r
    simp only at this
    rw [Function.comp_apply, Function.comp_apply, ← htxn, ← this]
    rfl
  refine ⟨?_, hrs⟩
  rw [PendingTxn.recomputedChain, ChainLink.close, CommittedTxn.preimage, hrs, ← h.link]

theorem ScanOutcome.collectCommit_chainHead (out : ScanOutcome) (marker : Marker)
    (group : PendingTxn) : (out.collectCommit H marker group).chainHead =
      if out.sLoad < marker.lastSeq then marker.chain else out.chainHead := by
  have hjudge : (out.judgeLink H marker group).chainHead =
      if out.sLoad < marker.lastSeq then marker.chain else out.chainHead := by
    rw [judgeLink]
    split
    · rfl
    · split <;> rfl
  rw [← hjudge, collectCommit]
  split <;> rfl

theorem ScanOutcome.collectCommit_chainBreak (out : ScanOutcome) (marker : Marker)
    (group : PendingTxn) : (out.collectCommit H marker group).chainBreak =
      if out.sLoad < marker.lastSeq ∧ group.recomputedChain H marker ≠ marker.chain then
        out.chainBreak <|> some marker.lastSeq
      else out.chainBreak := by
  have hjudge : (out.judgeLink H marker group).chainBreak =
      if out.sLoad < marker.lastSeq ∧ group.recomputedChain H marker ≠ marker.chain then
        out.chainBreak <|> some marker.lastSeq
      else out.chainBreak := by
    rw [judgeLink]
    by_cases hlt : out.sLoad < marker.lastSeq
    · simp [hlt]
    · simp only [hlt, false_and, if_false]
      split <;> rfl
  rw [← hjudge, collectCommit]
  split <;> rfl

/-- A group a marker commits joins the linked transactions. -/
theorem Walk.Chained.commit (h : w.Chained H base) {group : PendingTxn} {marker : Marker}
    (hgroup : group ∈ w.pending) (htxn : group.txn = marker.txn)
    (hcommits : group.commits marker = true) (hfits : (FramePayload.marker marker).Fits)
    (cut : Option (ℕ × ℕ)) : Walk.Chained H base { w with
      outcome := w.outcome.collectCommit H marker group
      pending := none
      cut := cut
      commits :=
        if w.outcome.sLoad < marker.lastSeq then
          w.commits ++ [⟨marker, group.records.map fun entry => (entry.seq, entry.bytes)⟩]
        else w.commits } := by
  obtain ⟨rs, hrs⟩ := h.pending group hgroup
  obtain ⟨hchain, hrecords⟩ := hrs.recomputedChain (H := H) htxn hcommits
  by_cases hlt : w.outcome.sLoad < marker.lastSeq
  · refine ⟨fun hbreak => ?_, ?_, fun t ht => ?_, fun _ hnone => (nomatch hnone)⟩
    · simp only [ScanOutcome.collectCommit_chainBreak, hlt, true_and] at hbreak
      simp only [hlt, if_true]
      split at hbreak
      · next hne => simp at hbreak
      · next heq =>
        rw [ne_eq, not_not] at heq
        refine (h.linked hbreak).concat ?_
        rw [← h.head, ← hchain, heq]
    · simp [ScanOutcome.collectCommit_chainHead, hlt, chainBefore]
    · simp only [hlt, if_true] at ht
      rcases List.mem_append.1 ht with ht | ht
      · exact h.fits t ht
      · rw [List.mem_singleton.1 ht]
        exact ⟨hfits, hrecords ▸ hrs.fits⟩
  · refine ⟨fun hbreak => ?_, ?_, fun t ht => ?_, fun _ hnone => (nomatch hnone)⟩
    · simp only [ScanOutcome.collectCommit_chainBreak, hlt, false_and, if_false] at hbreak ⊢
      exact h.linked hbreak
    · simp only [ScanOutcome.collectCommit_chainHead, hlt, if_false]
      exact h.head
    · simp only [hlt, if_false] at ht
      exact h.fits t ht

theorem Walk.Chained.onMarker (h : w.Chained H base) {marker : Marker} (next : ℕ)
    (hfits : (FramePayload.marker marker).Fits) :
    (w.onMarker H segs place next marker).Chained H base := by
  have hland : (w.land segs place (.landedOnMarker marker.lastSeq)).Chained H base := h.land _
  rw [Walk.onMarker]
  generalize w.land segs place (.landedOnMarker marker.lastSeq) = w at hland
  simp only
  split
  · next group hopen =>
    obtain ⟨hpending, htxn⟩ := Option.filter_eq_some_iff.1 hopen
    split
    · next hcommits => exact hland.commit hpending (beq_iff_eq.1 htxn) hcommits hfits _
    · -- a refused marker drops the group
      refine ⟨fun hbreak => hland.linked ?_, ?_, hland.fits, fun _ hnone => (nomatch hnone)⟩
      · simp only at hbreak
        split at hbreak <;> exact hbreak
      · simp only
        split <;> exact hland.head
  · refine ⟨fun hbreak => hland.linked ?_, ?_, hland.fits, fun group hgroup => ?_⟩
    · simp only at hbreak
      split at hbreak <;> exact hbreak
    · simp only
      split <;> exact hland.head
    · obtain ⟨rs, hrs⟩ := hland.pending group hgroup
      refine ⟨rs, ?_⟩
      simp only
      split <;> exact hrs

theorem Walk.Chained.onFrame (h : w.Chained H base) (payload : List UInt8) :
    (w.onFrame H segs place payload).Chained H base := by
  rw [Walk.onFrame]
  split
  · next record hdecode =>
    obtain ⟨hfits, rfl⟩ := decodePayload_eq_some_iff.1 hdecode
    exact h.onRecord hfits
  · next marker hdecode =>
    obtain ⟨hfits, -⟩ := decodePayload_eq_some_iff.1 hdecode
    exact h.onMarker _ hfits
  · have hrun : (w.beginRun place).Chained H base := h.beginRun
    exact ⟨hrun.linked, hrun.head, hrun.fits, hrun.pending⟩

/-- What a scan commits is linked where no link is found broken. -/
theorem walk_chained {sLoad : ℕ} {collect : Collect} (h : walk H segs sLoad collect base = .ok w) :
    w.Chained H base := by
  refine Walk.walk_induct (fun _ _ _ hw => hw.onFrame _) (fun _ _ hw => hw.beginRun)
    (fun w scanned hw => ?_) ?_ h
  · rw [Walk.finish, Walk.endRun]
    split <;> exact ⟨hw.linked, hw.head, hw.fits, hw.pending⟩
  · exact ⟨fun _ _ _ ht => (nomatch ht), rfl, fun _ ht => (nomatch ht), fun _ hnone => (nomatch hnone)⟩

theorem ScanOutcome.chainBreak_of_chainVerdict {out : ScanOutcome} (h : out.chainVerdict = none) :
    out.chainBreak = none := by
  rw [chainVerdict] at h
  cases hb : out.chainBreak with
  | none => rfl
  | some pos => cases hm : out.baseMismatch <;> cases hu : out.uncommittedIntact <;> simp [hb, hm, hu] at h

end Chained

/-- **The commit chain pins the history.** Two journals, whatever their bytes, are
scanned from genesis, and a chain value at a committed transaction of the one is the
value at one of the other. With SHA-256 taken as injective on what the two scans hash,
where neither scan reports a verdict of the chain's the transactions committed up to
there are the same: as many, with the same records, the same markers and the same
slots. Where they differ, a scan that reports nothing of the one leaves the other's to
be reported, to a recovery and to a history read. -/
theorem chain_pins_history (H : Hashes) (segs segs' : List Segment) (collect collect' : Collect)
    (w w' : Walk) (h : walk H segs 0 collect chainGenesis = .ok w)
    (h' : walk H segs' 0 collect' chainGenesis = .ok w') (hclean : w.outcome.chainVerdict = none)
    (hsha : H.InjectiveOn fun x => Hashed H chainGenesis w.commits x ∨ Hashed H chainGenesis w'.commits x)
    (i j : ℕ) (t t' : CommittedTxn) (hi : w.commits[i]? = some t) (hj : w'.commits[j]? = some t')
    (hchain : t.marker.chain = t'.marker.chain) :
    (w'.outcome.chainVerdict = none → i = j ∧ w.commits.take (i + 1) = w'.commits.take (j + 1)) ∧
    (w.commits.take (i + 1) ≠ w'.commits.take (j + 1) →
      w'.outcome.haltToHead ≠ none ∧ w'.outcome.haltAnywhere ≠ none) := by
  have hw := walk_chained h
  have hw' := walk_chained h'
  have hlinked := hw.linked (ScanOutcome.chainBreak_of_chainVerdict hclean)
  have hpinned : w'.outcome.chainVerdict = none →
      i = j ∧ w.commits.take (i + 1) = w'.commits.take (j + 1) := by
    intro hclean'
    have hlinked' := hw'.linked (ScanOutcome.chainBreak_of_chainVerdict hclean')
    have htake := hlinked.take_eq hlinked' hw.fits hw'.fits hsha hi hj hchain
    refine ⟨?_, htake⟩
    obtain ⟨hlt, -⟩ := List.getElem?_eq_some_iff.1 hi
    obtain ⟨hlt', -⟩ := List.getElem?_eq_some_iff.1 hj
    have hlen := congrArg List.length htake
    rw [List.length_take, List.length_take] at hlen
    omega
  have hhalt : ∀ run : Option (ℕ × RunPlace), w'.outcome.haltOn run = none →
      w'.outcome.chainVerdict = none := by
    intro run hnone
    rw [ScanOutcome.haltOn] at hnone
    cases run with
    | none => exact hnone
    | some run => cases hnone
  exact ⟨hpinned, fun hne => ⟨fun hnone => hne (hpinned (hhalt _ hnone)).2,
    fun hnone => hne (hpinned (hhalt _ hnone)).2⟩⟩

/-- What verifying the links hashes, listed. -/
def hashedList (H : Hashes) (base : Bytes32) (ts : List CommittedTxn) : List (List UInt8) :=
  ts.zipIdx.flatMap fun t =>
    [t.1.preimage H (chainBefore base ts t.2), slotBytes t.1.marker.sigAlg t.1.marker.sig]

theorem mem_hashedList {H : Hashes} {base : Bytes32} {ts : List CommittedTxn} {x : List UInt8}
    (h : Hashed H base ts x) : x ∈ hashedList H base ts := by
  obtain ⟨i, t, hi, hx⟩ := h
  refine List.mem_flatMap.2 ⟨(t, i), List.mem_zipIdx_iff_getElem?.2 hi, ?_⟩
  simpa using hx

/-- A transaction of one record, and its chain value. -/
def oneRecord (first : ℕ) (byte : UInt8) (prev : Bytes32) : List UInt8 × Bytes32 :=
  match encodeTxn .standard first [[byte]] prev ⟨List.replicate 32 1, rfl⟩ none with
  | .ok written => written
  | .err _ | .fault => ([], prev)

def shorterJournal : List Segment := [⟨1, (oneRecord 1 7 chainGenesis).1⟩]

def longerJournal : List Segment :=
  [⟨1, (oneRecord 1 7 chainGenesis).1 ++ (oneRecord 2 8 (oneRecord 1 7 chainGenesis).2).1⟩]

/-- What a walk of a journal commits, and its verdict. -/
def committed (segs : List Segment) : Option (List CommittedTxn × Option (ℕ × HaltCause)) :=
  match walk .standard segs 0 (.records none) chainGenesis with
  | .ok w => some (w.commits, w.outcome.chainVerdict)
  | .err _ | .fault => none

theorem committed_eq_some_iff {segs : List Segment}
    {p : List CommittedTxn × Option (ℕ × HaltCause)} : committed segs = some p ↔
      ∃ w, walk .standard segs 0 (.records none) chainGenesis = .ok w ∧
        (w.commits, w.outcome.chainVerdict) = p := by
  rw [committed]
  cases walk .standard segs 0 (.records none) chainGenesis <;> simp

/-- What the two journals commit. -/
def shorterCommits : List CommittedTxn := ((committed shorterJournal).map Prod.fst).getD []

def longerCommits : List CommittedTxn := ((committed longerJournal).map Prod.fst).getD []

theorem chain_pins_history_shared : ∃ w w' : Walk,
    walk .standard shorterJournal 0 (.records none) chainGenesis = .ok w ∧
    walk .standard longerJournal 0 (.records none) chainGenesis = .ok w' ∧
    w.commits ≠ w'.commits ∧ w.commits.take 1 = w'.commits.take 1 := by
  -- the digests are evaluated once, together
  have heval : (committed shorterJournal = some (shorterCommits, none) ∧ shorterCommits.length = 1) ∧
      (committed longerJournal = some (longerCommits, none) ∧ longerCommits.length = 2) ∧
      (shorterCommits[0]?.map fun t => t.marker.chain) =
        (longerCommits[0]?.map fun t => t.marker.chain) ∧
      (∀ x ∈ hashedList .standard chainGenesis longerCommits,
        Hashes.standard.sha256 x ≠ chainGenesis ∧
        ∀ y ∈ hashedList .standard chainGenesis longerCommits,
          Hashes.standard.sha256 x = Hashes.standard.sha256 y → x = y) ∧
      ∀ x ∈ hashedList .standard chainGenesis shorterCommits,
        x ∈ hashedList .standard chainGenesis longerCommits := by decide +kernel
  obtain ⟨⟨hshorter, hlen⟩, ⟨hlonger, hlen'⟩, hchain, hapart, hsub⟩ := heval
  obtain ⟨w, hw, hcommits⟩ := committed_eq_some_iff.1 hshorter
  obtain ⟨w', hw', hcommits'⟩ := committed_eq_some_iff.1 hlonger
  obtain ⟨hc, -⟩ := Prod.mk.inj hcommits
  obtain ⟨hc', hv'⟩ := Prod.mk.inj hcommits'
  rw [← hc] at hlen hchain hsub
  rw [← hc'] at hlen' hchain hapart hsub
  have hmem : ∀ x, Hashed .standard chainGenesis w.commits x ∨ Hashed .standard chainGenesis w'.commits x →
      x ∈ hashedList .standard chainGenesis w'.commits := by
    rintro x (hx | hx)
    · exact hsub x (mem_hashedList hx)
    · exact mem_hashedList hx
  have ht : w.commits[0]? = some w.commits[0] := List.getElem?_eq_getElem _
  have ht' : w'.commits[0]? = some w'.commits[0] := List.getElem?_eq_getElem _
  refine ⟨w, w', hw, hw', fun heq => ?_, ?_⟩
  · rw [heq, hlen'] at hlen
    cases hlen
  · rw [ht, ht', Option.map_some, Option.map_some, Option.some.injEq] at hchain
    exact ((chain_pins_history .standard shorterJournal longerJournal (.records none) (.records none)
      w w' hw hw' (Prod.mk.inj hcommits).2 ⟨fun x y hx hy => (hapart x (hmem x hx)).2 y (hmem y hy),
        fun x hx => (hapart x (hmem x hx)).1⟩ 0 0 _ _ ht ht' hchain).1 hv').2

end Journal
