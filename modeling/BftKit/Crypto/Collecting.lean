import Mathlib.Data.List.Perm.Subperm
import BftKit.Crypto.Threshold

/-! # Collecting shares

Shares of the listed signers of a message are aggregated when the last of them comes
in: fewer than the minimum number of signers are never enough, and as many are all.
-/

namespace BftKit.Threshold

variable {scheme : ThresholdScheme} {Value : Type}

/-- Distinct indices that all have a share are at most as many as the shares. -/
theorem length_le_size {shares : Std.ExtTreeMap Nat Value} {indices : List Nat}
    (hnodup : indices.Nodup) (hall : ∀ index ∈ indices, (shares[index]?).isSome) :
    indices.length ≤ shares.size := by
  rw [← Std.ExtTreeMap.length_keys]
  apply (List.subperm_of_subset hnodup _).length_le
  intro index hindex
  rw [Std.ExtTreeMap.mem_keys, Std.ExtTreeMap.mem_iff_isSome_getElem?]
  exact hall index hindex

/-- As many keys of a map as there may be are all of them. -/
theorem size_lt_iff {shares : Std.ExtTreeMap Nat Value} {keys : List Nat} (hnodup : keys.Nodup)
    (hkeys : ∀ index, (shares[index]?).isSome → index ∈ keys) :
    shares.size < keys.length ↔ ∃ index ∈ keys, shares[index]? = none := by
  have hmem : ∀ index, index ∈ shares.keys ↔ (shares[index]?).isSome := by
    intro index
    rw [Std.ExtTreeMap.mem_keys, Std.ExtTreeMap.mem_iff_isSome_getElem?]
  have hsubset : shares.keys ⊆ keys := fun index hindex => hkeys index ((hmem index).mp hindex)
  constructor
  · intro hlt
    by_contra hall
    apply absurd (length_le_size hnodup _) (not_le.mpr hlt)
    intro index hindex
    rw [← Option.ne_none_iff_isSome]
    exact fun hnone => hall ⟨index, hindex, hnone⟩
  · rintro ⟨index, hindex, hnone⟩
    by_contra hge
    rw [← Std.ExtTreeMap.length_keys, not_lt] at hge
    have hperm := (List.subperm_of_subset Std.ExtTreeMap.nodup_keys hsubset).perm_of_length_le hge
    have hsome := (hmem index).mp (hperm.mem_iff.mpr hindex)
    rw [hnone] at hsome
    cases hsome

/-- The shares of all listed signers can be taken. -/
theorem takeShares_ok {shares : Std.ExtTreeMap Nat scheme.GivreSigShare}
    {signers : List (Nat × scheme.GivrePublicCommitments)} (hnodup : (signers.map Prod.fst).Nodup)
    (hall : ∀ signer ∈ signers, (shares[signer.1]?).isSome) :
    ∃ taken, (takeShares shares signers).2 = .ok taken ∧
      taken.map (fun entry => (entry.1, entry.2.1)) = signers ∧
      ∀ entry ∈ taken, shares[entry.1]? = some entry.2.2 := by
  induction signers generalizing shares with
  | nil => exact ⟨[], rfl, rfl, fun _ hentry => by cases hentry⟩
  | cons signer rest ih =>
      obtain ⟨index, publicCommitments⟩ := signer
      rw [List.map_cons, List.nodup_cons] at hnodup
      obtain ⟨share, hshare⟩ := Option.isSome_iff_exists.mp (hall _ List.mem_cons_self)
      have herase : ∀ other, other ≠ index → (shares.erase index)[other]? = shares[other]? := by
        intro other hne
        rw [Std.ExtTreeMap.getElem?_erase, if_neg]
        exact fun hcompare => hne (compare_eq_iff_eq.mp hcompare).symm
      have hrest : ∀ signer ∈ rest, signer.1 ≠ index := by
        rintro signer hsigner rfl
        exact hnodup.1 (List.mem_map.mpr ⟨signer, hsigner, rfl⟩)
      obtain ⟨taken, htaken, hsigners, hshares⟩ := @ih (shares.erase index) hnodup.2 (by
        intro signer hsigner
        rw [herase _ (hrest signer hsigner)]
        exact hall signer (List.mem_cons_of_mem _ hsigner))
      refine ⟨(index, publicCommitments, share) :: taken, ?_, ?_, ?_⟩
      · unfold takeShares
        rw [show shares[index]? = some share from hshare]
        change Except.map _ (takeShares (shares.erase index) rest).2 = _
        rw [htaken]
        rfl
      · rw [List.map_cons, hsigners]
      · intro entry hentry
        rcases List.mem_cons.mp hentry with rfl | hentry
        · exact hshare
        · have hmem : (entry.1, entry.2.1) ∈ rest := by
            rw [← hsigners]
            exact List.mem_map_of_mem hentry
          rw [← herase _ (hrest _ hmem)]
          exact hshares entry hentry

/-- A further share of a listed signer is kept, until all of them are aggregated. -/
theorem addPartial_listed {keyShare : scheme.GivreKeyShare} {digest : Digest}
    {signers : List (Nat × scheme.GivrePublicCommitments)}
    {shares : Std.ExtTreeMap Nat scheme.GivreSigShare} {index : Nat} {share : scheme.GivreSigShare}
    (hnodup : (signers.map Prod.fst).Nodup) (hlength : signers.length = scheme.minSigners keyShare)
    (hkeys : ∀ index, (shares[index]?).isSome → index ∈ signers.map Prod.fst)
    (hindex : index ∈ signers.map Prod.fst)
    (haggregate : ∀ taken, taken.map (fun entry => (entry.1, entry.2.1)) = signers →
      (∀ entry ∈ taken, (shares.insert index share)[entry.1]? = some entry.2.2) →
      (scheme.aggregate keyShare taken digest).isSome) :
    ∃ partialSigs result,
      (PartialSigs.givre shares).addPartial index (.givre share)
        (.givre { keyShare, signers, digest }) = (partialSigs, .ok result) ∧
      (result = none → partialSigs = .givre (shares.insert index share)) ∧
      (result.isSome ↔ ∀ signer ∈ signers, ((shares.insert index share)[signer.1]?).isSome) := by
  have hkeys' : ∀ other, ((shares.insert index share)[other]?).isSome →
      other ∈ signers.map Prod.fst := by
    intro other hsome
    rw [Std.ExtTreeMap.getElem?_insert] at hsome
    split at hsome
    next hcompare => exact compare_eq_iff_eq.mp hcompare ▸ hindex
    next => exact hkeys other hsome
  have hsize := size_lt_iff hnodup hkeys'
  rw [List.length_map, hlength] at hsize
  unfold PartialSigs.addPartial
  dsimp only
  split
  next hlt =>
    refine ⟨_, none, rfl, fun _ => rfl, ?_⟩
    obtain ⟨other, hother, hnone⟩ := hsize.mp hlt
    obtain ⟨signer, hsigner, rfl⟩ := List.mem_map.mp hother
    refine iff_of_false (by simp) fun hall => ?_
    have hsome := hall signer hsigner
    rw [hnone] at hsome
    cases hsome
  next hge =>
    have hall : ∀ signer ∈ signers, ((shares.insert index share)[signer.1]?).isSome := by
      intro signer hsigner
      rw [← Option.ne_none_iff_isSome]
      exact fun hnone => hge (hsize.mpr ⟨_, List.mem_map_of_mem hsigner, hnone⟩)
    obtain ⟨taken, htaken, hsigners, hshares⟩ := takeShares_ok hnodup hall
    obtain ⟨sig, hsig⟩ := Option.isSome_iff_exists.mp (haggregate taken hsigners hshares)
    obtain ⟨rest, hrest⟩ : ∃ rest,
        takeShares (shares.insert index share) signers = (rest, .ok taken) :=
      ⟨_, Prod.ext rfl htaken⟩
    rw [hrest]
    dsimp only
    rw [hsig]
    refine ⟨_, _, rfl, ?_, iff_of_true rfl hall⟩
    intro hnone
    cases hnone

end BftKit.Threshold
