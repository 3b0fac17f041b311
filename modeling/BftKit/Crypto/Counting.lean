import Mathlib.Data.Finset.Card
import Mathlib.Data.List.DropRight
import BftKit.Crypto.Collecting
import BftKit.Crypto.Transparent
import BftKit.Foundation.Result
import BftKit.Foundation.Run

/-! # Vectors of signatures

The kind of threshold signature that is a vector of ordinary ones. Aggregation counts the
indices that have a signature, verification those whose last signature is valid; both
compare the count with the threshold.
-/

namespace BftKit.Threshold

open Foundation

variable {scheme : ThresholdScheme} {Value : Type}

/-! ## Maps by index -/

theorem size_eq_card {map : Std.ExtTreeMap Nat Value} {indices : Finset Nat}
    (hindices : ∀ index, (map[index]?).isSome ↔ index ∈ indices) : map.size = indices.card := by
  have hkeys : map.keys.toFinset = indices := by
    ext index
    rw [List.mem_toFinset, Std.ExtTreeMap.mem_keys, Std.ExtTreeMap.mem_iff_isSome_getElem?]
    exact hindices index
  rw [← Std.ExtTreeMap.length_keys, ← hkeys,
    List.toFinset_card_of_nodup Std.ExtTreeMap.nodup_keys]

theorem isSome_getElem?_insert (map : Std.ExtTreeMap Nat Value) (index other : Nat)
    (value : Value) : ((map.insert index value)[other]?).isSome ↔
      other = index ∨ (map[other]?).isSome := by
  rw [Std.ExtTreeMap.getElem?_insert]
  split
  next heq => simp [compare_eq_iff_eq.mp heq]
  next hne =>
    have hother : other ≠ index := by
      rintro rfl
      exact hne (compare_eq_iff_eq.mpr rfl)
    simp [hother]

/-- The signatures by index, the last one of each. -/
def byIndex (entries : List (Nat × Value)) : Std.ExtTreeMap Nat Value :=
  entries.foldl (fun map entry => map.insert entry.1 entry.2) ∅

theorem byIndex_concat (entries : List (Nat × Value)) (entry : Nat × Value) :
    byIndex (entries ++ [entry]) = (byIndex entries).insert entry.1 entry.2 := by
  rw [byIndex, List.foldl_append]
  rfl

theorem isSome_byIndex {entries : List (Nat × Value)} {index : Nat} :
    ((byIndex entries)[index]?).isSome ↔ index ∈ entries.map Prod.fst := by
  induction entries using List.reverseRecOn with
  | nil => simp [byIndex]
  | append_singleton entries entry ih =>
      rw [byIndex_concat, isSome_getElem?_insert, ih, List.map_append, List.mem_append,
        List.map_singleton, List.mem_singleton, or_comm]

theorem mem_of_byIndex {entries : List (Nat × Value)} {index : Nat} {value : Value}
    (hlookup : (byIndex entries)[index]? = some value) : (index, value) ∈ entries := by
  induction entries using List.reverseRecOn with
  | nil => simp [byIndex] at hlookup
  | append_singleton entries entry ih =>
      rw [byIndex_concat, Std.ExtTreeMap.getElem?_insert] at hlookup
      split at hlookup
      next heq =>
        obtain rfl := compare_eq_iff_eq.mp heq
        obtain rfl := Option.some.inj hlookup
        exact List.mem_append_right _ List.mem_cons_self
      next => exact List.mem_append_left _ (ih hlookup)

/-! ## Verification -/

/-- The signature verifies under the public key of its index. -/
def Valid (publicKeys : List scheme.PublicKey) (digest : Digest)
    (entry : Nat × scheme.Sig) : Bool :=
  (publicKeys[entry.1]?).any (scheme.verifyDigest digest · entry.2)

variable {publicKeys : List scheme.PublicKey} {digest : Digest} {threshold : Nat}
  {entries sigs : List (Nat × scheme.Sig)}

theorem valid_eq {entry : Nat × scheme.Sig} {publicKey : scheme.PublicKey}
    (hkey : publicKeys[entry.1]? = some publicKey) :
    Valid publicKeys digest entry = scheme.verifyDigest digest publicKey entry.2 := by
  rw [Valid, hkey, Option.any_some]

/-- A count that is returned is that of the valid entries, up to the budget. -/
theorem countValid_eq {budget count : Nat}
    (hcount : countValid digest publicKeys budget entries = .ok count) :
    count = min budget (entries.countP (Valid publicKeys digest)) := by
  induction entries generalizing budget count with
  | nil => cases budget <;> exact (Except.ok.inj hcount).symm.trans (Nat.min_zero _).symm
  | cons entry rest ih =>
      cases budget with
      | zero => exact (Except.ok.inj hcount).symm.trans (Nat.zero_min _).symm
      | succ budget =>
          rw [countValid] at hcount
          cases hkey : publicKeys[entry.1]? with
          | none =>
              rw [hkey] at hcount
              cases hcount
          | some publicKey =>
              rw [hkey] at hcount
              dsimp only at hcount
              rw [List.countP_cons, valid_eq hkey]
              split at hcount
              next hverify =>
                obtain ⟨found, hfound, heq⟩ := bind_eq_ok.mp hcount
                rw [if_pos hverify, ← Except.ok.inj heq, ih hfound]
                omega
              next hverify =>
                rw [if_neg hverify]
                exact ih hcount

/-- Where every index has a public key, a count is returned. -/
theorem countValid_ok (digest : Digest)
    (hindices : ∀ entry ∈ entries, entry.1 < publicKeys.length) (budget : Nat) :
    ∃ count, countValid digest publicKeys budget entries = .ok count := by
  induction entries generalizing budget with
  | nil => cases budget <;> exact ⟨0, rfl⟩
  | cons entry rest ih =>
      have hrest := ih fun other hother => hindices other (List.mem_cons_of_mem _ hother)
      cases budget with
      | zero => exact ⟨0, rfl⟩
      | succ budget =>
          have hkey := List.getElem?_eq_getElem (hindices entry List.mem_cons_self)
          rw [countValid, hkey]
          dsimp only
          split
          · obtain ⟨count, hcount⟩ := hrest budget
            exact ⟨count + 1, bind_eq_ok.mpr ⟨count, hcount, rfl⟩⟩
          · exact hrest (budget + 1)

/-- A vector that verifies has as many indices with a valid last signature as the
threshold. -/
theorem verifyDigest_count
    (hverify : verifyDigest digest (.vec sigs) (.vec publicKeys threshold) = .ok true) :
    (byIndex sigs).toList.countP (Valid publicKeys digest) = threshold := by
  rw [verifyDigest] at hverify
  obtain ⟨count, hcount, heq⟩ := bind_eq_ok.mp hverify
  have hmin := countValid_eq hcount
  have hthreshold : count = threshold := by simpa using heq
  rw [byIndex]
  omega

theorem verifyDigest_of_count (hindices : ∀ entry ∈ sigs, entry.1 < publicKeys.length)
    (hcount : (byIndex sigs).toList.countP (Valid publicKeys digest) = threshold) :
    verifyDigest digest (.vec sigs) (.vec publicKeys threshold) = .ok true := by
  have hlast : ∀ entry ∈ (byIndex sigs).toList, entry.1 < publicKeys.length := by
    intro entry hentry
    apply hindices entry
    exact mem_of_byIndex (Std.ExtTreeMap.mem_toList_iff_getElem?_eq_some.mp hentry)
  obtain ⟨count, hok⟩ := countValid_ok digest hlast (threshold + 1)
  have hmin := countValid_eq hok
  have hthreshold : count = threshold := by omega
  rw [verifyDigest]
  refine bind_eq_ok.mpr ⟨count, hok, ?_⟩
  rw [hthreshold, beq_self_eq_true]

/-- What verifies carries valid signatures of enough distinct indices, whatever else it
carries. -/
theorem verifyDigest_sound
    (hverify : verifyDigest digest (.vec sigs) (.vec publicKeys threshold) = .ok true) :
    ∃ signers : Finset Nat, threshold ≤ signers.card ∧
      ∀ index ∈ signers, ∃ sig, (index, sig) ∈ sigs ∧ Valid publicKeys digest (index, sig) := by
  let valid := (byIndex sigs).toList.filter (Valid publicKeys digest)
  have hnodup : (valid.map Prod.fst).Nodup := by
    have hkeys := Std.ExtTreeMap.nodup_keys (t := byIndex sigs)
    rw [← Std.ExtTreeMap.map_fst_toList_eq_keys] at hkeys
    exact hkeys.sublist (List.filter_sublist.map _)
  refine ⟨(valid.map Prod.fst).toFinset, ?_, ?_⟩
  · rw [List.toFinset_card_of_nodup hnodup, List.length_map, ← List.countP_eq_length_filter,
      verifyDigest_count hverify]
  · intro index hindex
    obtain ⟨entry, hentry, rfl⟩ := List.mem_map.mp (List.mem_toFinset.mp hindex)
    obtain ⟨hmem, hvalid⟩ := List.mem_filter.mp hentry
    exact ⟨entry.2,
      mem_of_byIndex (Std.ExtTreeMap.mem_toList_iff_getElem?_eq_some.mp hmem), hvalid⟩

/-- Valid signatures of as many distinct indices as the threshold verify, in any order. -/
theorem verifyDigest_complete (hnodup : (sigs.map Prod.fst).Nodup)
    (hvalid : ∀ entry ∈ sigs, Valid publicKeys digest entry) (hlength : sigs.length = threshold) :
    verifyDigest digest (.vec sigs) (.vec publicKeys threshold) = .ok true := by
  have hindices : ∀ entry ∈ sigs, entry.1 < publicKeys.length := by
    intro entry hentry
    by_contra hge
    have hnone := hvalid entry hentry
    rw [Valid, List.getElem?_eq_none (Nat.le_of_not_lt hge)] at hnone
    cases hnone
  have hsize : (byIndex sigs).size = (sigs.map Prod.fst).toFinset.card :=
    size_eq_card fun index => isSome_byIndex.trans List.mem_toFinset.symm
  apply verifyDigest_of_count hindices
  have hall : (byIndex sigs).toList.countP (Valid publicKeys digest) =
      (byIndex sigs).toList.length := by
    apply List.countP_eq_length.mpr
    intro entry hentry
    exact hvalid entry (mem_of_byIndex (Std.ExtTreeMap.mem_toList_iff_getElem?_eq_some.mp hentry))
  rw [hall, Std.ExtTreeMap.length_toList, hsize, List.toFinset_card_of_nodup hnodup,
    List.length_map, hlength]

/-! ## Aggregation -/

/-- A share that is added, with what the addition returned. -/
structure VecAddition (scheme : ThresholdScheme) where
  index : Nat
  sig : scheme.Sig
  result : Except AggregateError (Option (Sig scheme))

/-- An aggregate was returned. -/
def VecAddition.completes (addition : VecAddition scheme) : Bool :=
  match addition.result with
  | .ok (some _) => true
  | .ok none | .error _ => false

/-- Valid shares of one message are added one by one. -/
abbrev VecRun (publicKeys : List scheme.PublicKey) (digest : Digest) (threshold : Nat) :
    List (VecAddition scheme) → PartialSigs scheme → Prop :=
  Run (· = .vec ∅) fun _ partialSigs addition next =>
    Valid publicKeys digest (addition.index, addition.sig) ∧
      partialSigs.addPartial addition.index (.vec addition.sig) (.vec threshold) =
        (next, addition.result)

/-- The indices that were added since the last aggregate. -/
def collected (history : List (VecAddition scheme)) : Finset Nat :=
  ((history.rtakeWhile fun addition => !addition.completes).map VecAddition.index).toFinset

theorem collected_concat (history : List (VecAddition scheme)) (addition : VecAddition scheme) :
    collected (history ++ [addition]) =
      if addition.completes then ∅ else insert addition.index (collected history) := by
  rw [collected, List.rtakeWhile_concat]
  cases addition.completes with
  | true => rfl
  | false =>
      ext index
      simp [collected]

/-- The signatures that are kept: valid ones of the collected indices, fewer than the
threshold. -/
structure Collecting (publicKeys : List scheme.PublicKey) (digest : Digest) (threshold : Nat)
    (indices : Finset Nat) (sigs : Std.ExtTreeMap Nat scheme.Sig) : Prop where
  isSome_iff : ∀ index, (sigs[index]?).isSome ↔ index ∈ indices
  valid : ∀ index sig, sigs[index]? = some sig → Valid publicKeys digest (index, sig)
  card_lt : indices.card < threshold

section Aggregation

variable {indices : Finset Nat} {shares : Std.ExtTreeMap Nat scheme.Sig} {index : Nat}
  {sig : scheme.Sig}

theorem Collecting.size_insert (h : Collecting publicKeys digest threshold indices shares) :
    (shares.insert index sig).size = (insert index indices).card := by
  apply size_eq_card
  intro other
  rw [isSome_getElem?_insert, h.isSome_iff, Finset.mem_insert]

theorem Collecting.valid_insert (h : Collecting publicKeys digest threshold indices shares)
    (hvalid : Valid publicKeys digest (index, sig)) (other : Nat) (sig' : scheme.Sig)
    (hlookup : (shares.insert index sig)[other]? = some sig') :
    Valid publicKeys digest (other, sig') := by
  rw [Std.ExtTreeMap.getElem?_insert] at hlookup
  split at hlookup
  next heq =>
    obtain rfl := compare_eq_iff_eq.mp heq
    obtain rfl := Option.some.inj hlookup
    exact hvalid
  next => exact h.valid other sig' hlookup

/-- What an addition returns, and what it leaves. -/
theorem Collecting.addPartial_cases (h : Collecting publicKeys digest threshold indices shares)
    (hvalid : Valid publicKeys digest (index, sig)) :
    (insert index indices).card = threshold ∧
        (PartialSigs.vec shares).addPartial index (.vec sig) (.vec threshold) =
          (.vec ∅, .ok (some (.vec (shares.insert index sig).toList))) ∨
      (insert index indices).card < threshold ∧
        (PartialSigs.vec shares).addPartial index (.vec sig) (.vec threshold) =
          (.vec (shares.insert index sig), .ok none) ∧
        Collecting publicKeys digest threshold (insert index indices)
          (shares.insert index sig) := by
  have hsize : (shares.insert index sig).size = _ := h.size_insert
  have hle := Finset.card_insert_le index indices
  have hlt := h.card_lt
  unfold PartialSigs.addPartial
  dsimp only
  rw [hsize]
  by_cases hfew : (insert index indices).card < threshold
  · rw [if_pos hfew]
    refine .inr ⟨hfew, rfl, ?_, h.valid_insert hvalid, hfew⟩
    intro other
    rw [isSome_getElem?_insert, h.isSome_iff, Finset.mem_insert]
  · rw [if_neg hfew]
    exact .inl ⟨by omega, rfl⟩

theorem VecRun.collecting (hpos : 1 ≤ threshold) {history : List (VecAddition scheme)}
    {partialSigs : PartialSigs scheme}
    (hrun : VecRun publicKeys digest threshold history partialSigs) :
    ∃ shares, partialSigs = .vec shares ∧
      Collecting publicKeys digest threshold (collected history) shares := by
  have hempty : Collecting publicKeys digest threshold ∅ (∅ : Std.ExtTreeMap Nat scheme.Sig) :=
    ⟨by simp, by simp, hpos⟩
  induction hrun with
  | start hinit => exact ⟨∅, hinit, hempty⟩
  | @step history partialSigs addition next hprev hstep ih =>
      obtain ⟨shares, rfl, hcollecting⟩ := ih
      obtain ⟨hvalid, hadd⟩ := hstep
      obtain ⟨index, sig, result⟩ := addition
      dsimp only at hvalid hadd
      rw [collected_concat]
      rcases hcollecting.addPartial_cases hvalid with ⟨-, heq⟩ | ⟨-, heq, hnext⟩
      · rw [heq] at hadd
        obtain ⟨rfl, rfl⟩ := Prod.mk.inj hadd
        exact ⟨∅, rfl, hempty⟩
      · rw [heq] at hadd
        obtain ⟨rfl, rfl⟩ := Prod.mk.inj hadd
        exact ⟨_, rfl, hnext⟩

end Aggregation

/-! ## Aggregation agrees with verification -/

/-- Signatures on a digest verify under the public key of a secret key exactly if they
were made with it. -/
def VerifiesExactly (scheme : ThresholdScheme)
    (made : Digest → scheme.SecretKey → scheme.Sig → Prop) : Prop :=
  ∀ digest secretKey sig,
    scheme.verifyDigest digest (scheme.publicKey secretKey) sig = true ↔ made digest secretKey sig

/-- The signature was made with the secret key of its index. -/
def Genuine (made : Digest → scheme.SecretKey → scheme.Sig → Prop)
    (secretKeys : List scheme.SecretKey) (digest : Digest) (index : Nat)
    (sig : scheme.Sig) : Prop :=
  ∃ secretKey, secretKeys[index]? = some secretKey ∧ made digest secretKey sig

section Agreement

variable {made : Digest → scheme.SecretKey → scheme.Sig → Prop}
  {secretKeys : List scheme.SecretKey}

theorem VerifiesExactly.valid_iff (hexact : VerifiesExactly scheme made) {index : Nat}
    {sig : scheme.Sig} : Valid (secretKeys.map scheme.publicKey) digest (index, sig) = true ↔
      Genuine made secretKeys digest index sig := by
  rw [Valid, Genuine, List.getElem?_map]
  cases hkey : secretKeys[index]? with
  | none => simp
  | some secretKey => simp [hexact digest secretKey sig]

/-- Genuine shares of one digest are added one by one. -/
abbrev ShareRun (made : Digest → scheme.SecretKey → scheme.Sig → Prop)
    (secretKeys : List scheme.SecretKey) (digest : Digest) (threshold : Nat) :
    List (VecAddition scheme) → PartialSigs scheme → Prop :=
  Run (· = .vec ∅) fun _ partialSigs addition next =>
    Genuine made secretKeys digest addition.index addition.sig ∧
      partialSigs.addPartial addition.index (.vec addition.sig) (.vec threshold) =
        (next, addition.result)

/-- Aggregates of genuine shares are returned when as many indices as the threshold have
been collected, and verify. Whatever verifies carries genuine signatures of as many indices.
What verifies under a key is what has been made with it. -/
theorem vec_aggregation_agrees (hexact : VerifiesExactly scheme made) (hpos : 1 ≤ threshold)
    (secretKeys : List scheme.SecretKey) (digest : Digest) :
    (∀ history partialSigs, ShareRun made secretKeys digest threshold history partialSigs →
      ∀ index sig, Genuine made secretKeys digest index sig →
        ((insert index (collected history)).card = threshold →
          ∃ sigs, (partialSigs.addPartial index (.vec sig) (.vec threshold)).2 =
              .ok (some (.vec sigs)) ∧
            ∀ sigs', sigs'.Perm sigs → verifyDigest digest (.vec sigs')
              (.vec (secretKeys.map scheme.publicKey) threshold) = .ok true) ∧
        ((insert index (collected history)).card ≠ threshold →
          (partialSigs.addPartial index (.vec sig) (.vec threshold)).2 = .ok none)) ∧
    ∀ sigs, verifyDigest digest (.vec sigs)
        (.vec (secretKeys.map scheme.publicKey) threshold) = .ok true →
      ∃ signers : Finset Nat, threshold ≤ signers.card ∧
        ∀ index ∈ signers, ∃ sig, (index, sig) ∈ sigs ∧
          Genuine made secretKeys digest index sig := by
  constructor
  · intro history partialSigs hrun index sig hgenuine
    have hvalid := hexact.valid_iff.mpr hgenuine
    have hvec : VecRun (secretKeys.map scheme.publicKey) digest threshold history partialSigs :=
      hrun.mono (fun _ h => h) fun _ _ _ _ h => ⟨hexact.valid_iff.mpr h.1, h.2⟩
    obtain ⟨shares, rfl, hcollecting⟩ := VecRun.collecting hpos hvec
    have hsize : (shares.insert index sig).size = _ := hcollecting.size_insert
    rcases hcollecting.addPartial_cases hvalid with ⟨hcard, heq⟩ | ⟨hfew, heq, -⟩
    · rw [heq]
      refine ⟨fun _ => ⟨_, rfl, ?_⟩, fun hne => absurd hcard hne⟩
      intro sigs' hperm
      apply verifyDigest_complete
      · rw [(hperm.map Prod.fst).nodup_iff, Std.ExtTreeMap.map_fst_toList_eq_keys]
        exact Std.ExtTreeMap.nodup_keys
      · intro entry hentry
        apply hcollecting.valid_insert hvalid
        exact Std.ExtTreeMap.mem_toList_iff_getElem?_eq_some.mp (hperm.mem_iff.mp hentry)
      · rw [hperm.length_eq, Std.ExtTreeMap.length_toList, hsize, hcard]
    · rw [heq]
      exact ⟨fun hcard => absurd hcard hfew.ne, fun _ => rfl⟩
  · intro sigs hverify
    obtain ⟨signers, hcard, hsigners⟩ := verifyDigest_sound hverify
    refine ⟨signers, hcard, ?_⟩
    intro index hindex
    obtain ⟨sig, hmem, hvalid⟩ := hsigners index hindex
    exact ⟨sig, hmem, hexact.valid_iff.mp hvalid⟩

end Agreement

/-! ## Two of three -/

def clearSig (secretKey : Nat) : ThresholdScheme.transparent.Sig := (Digest.zero.bytes, secretKey)

def MadeClear (digest : Digest) (secretKey : ThresholdScheme.transparent.SecretKey)
    (sig : ThresholdScheme.transparent.Sig) : Prop := sig = (digest.bytes, secretKey)

theorem transparent_verifiesExactly : VerifiesExactly .transparent MadeClear :=
  fun _ _ _ => beq_iff_eq

theorem clearSig_genuine {index : Nat} (hindex : index < 3) :
    Genuine MadeClear (List.range 3) .zero index (clearSig index) :=
  ⟨index, List.getElem?_range hindex, rfl⟩

/-- The first signer is heard twice before the second one gives the aggregate. -/
theorem vec_aggregation_agrees_pair : ∃ history partialSigs sigs,
    ShareRun MadeClear (List.range 3) .zero 2 history partialSigs ∧ history.length = 2 ∧
    (partialSigs.addPartial 0 (.vec (clearSig 0)) (.vec 2)).2 = .ok (some (.vec sigs)) ∧
    verifyDigest .zero (.vec sigs) (.vec (List.range 3) 2) = .ok true := by
  let first : PartialSigs .transparent := .vec (Std.ExtTreeMap.insert ∅ 1 (clearSig 1))
  let second := first.addPartial 1 (.vec (clearSig 1)) (.vec 2)
  have hfirst : PartialSigs.addPartial 1 (.vec ∅) (.vec (clearSig 1)) (.vec 2) =
      (first, .ok none) := by
    unfold PartialSigs.addPartial
    exact if_pos (by decide +kernel)
  have hrun : ShareRun MadeClear (List.range 3) .zero 2
      ([] ++ [⟨1, clearSig 1, .ok none⟩] ++ [⟨1, clearSig 1, second.2⟩]) second.1 :=
    .step (.step (.start rfl) ⟨clearSig_genuine (by decide), hfirst⟩)
      ⟨clearSig_genuine (by decide), rfl⟩
  obtain ⟨sigs, hsigs, hverify⟩ := ((vec_aggregation_agrees transparent_verifiesExactly (by decide)
    (List.range 3) .zero).1 _ _ hrun 0 (clearSig 0) (clearSig_genuine (by decide))).1
    (by decide +kernel)
  refine ⟨_, _, sigs, hrun, rfl, hsigs, ?_⟩
  have hkeys : (List.range 3).map ThresholdScheme.transparent.publicKey = List.range 3 := rfl
  rw [← hkeys]
  exact hverify sigs (List.Perm.refl _)

end BftKit.Threshold
