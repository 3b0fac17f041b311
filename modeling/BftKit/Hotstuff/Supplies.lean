import BftKit.Hotstuff.Nonces

/-! # Supplies of commitments

The leader keeps the commitments that it has been supplied with, and its own, until it
lists them. So no commitment is listed more often than it has been supplied.
-/

namespace BftKit.Hotstuff

open Foundation Threshold

variable {scheme : ThresholdScheme}

section Pop

variable {Commitments : Type} {count : Nat} {supplies : List (Nat × List Commitments)}

theorem mem_popCommitments {signer : Nat × Commitments}
    (h : signer ∈ popCommitments count supplies) :
    ∃ supply, (signer.1, supply) ∈ supplies ∧ supply.getLast? = some signer.2 := by
  induction supplies generalizing count with
  | nil => cases count <;> cases h
  | cons entry rest ih =>
      cases count with
      | zero => cases h
      | succ count =>
          obtain ⟨index, supply⟩ := entry
          unfold popCommitments at h
          split at h
          next =>
            obtain ⟨supply', hmem, hlast⟩ := ih h
            exact ⟨supply', List.mem_cons_of_mem _ hmem, hlast⟩
          next publicCommitments hlast =>
            rcases List.mem_cons.mp h with rfl | h
            · exact ⟨supply, List.mem_cons_self, hlast⟩
            · obtain ⟨supply', hmem, hlast'⟩ := ih h
              exact ⟨supply', List.mem_cons_of_mem _ hmem, hlast'⟩

theorem popCommitments_sublist :
    ((popCommitments count supplies).map Prod.fst).Sublist (supplies.map Prod.fst) := by
  induction supplies generalizing count with
  | nil => cases count <;> exact List.Sublist.refl _
  | cons entry rest ih =>
      cases count with
      | zero => exact List.nil_sublist _
      | succ count =>
          unfold popCommitments
          split
          next => exact ih.cons _
          next => exact ih.cons_cons _

theorem length_popCommitments : (popCommitments count supplies).length ≤ count := by
  induction supplies generalizing count with
  | nil => cases count <;> exact Nat.zero_le _
  | cons entry rest ih =>
      cases count with
      | zero => exact Nat.zero_le _
      | succ count =>
          unfold popCommitments
          split
          next => exact ih
          next => exact Nat.succ_le_succ ih

end Pop

namespace Replica

variable {replica next : Replica scheme} {event : Event scheme} {count index : Nat}
  {publicCommitments : scheme.GivrePublicCommitments}

theorem takeSigners_nodup (replica : Replica scheme) (count : Nat) :
    ((replica.takeSigners count).2.map Prod.fst).Nodup := by
  have hdistinct := @Std.ExtTreeMap.distinct_keys_toList _ _ _ replica.publicCommitmentsPool _
  have hkeys : (replica.publicCommitmentsPool.toList.map Prod.fst).Nodup := by
    rw [List.Nodup, List.pairwise_map]
    exact hdistinct.imp fun hne heq => hne (by rw [heq]; exact compare_eq_iff_eq.mpr rfl)
  exact hkeys.sublist popCommitments_sublist

theorem length_takeSigners (replica : Replica scheme) (count : Nat) :
    (replica.takeSigners count).2.length ≤ count :=
  length_popCommitments

/-- Taken commitments are the last ones of their supplies. -/
theorem takeSigners_last {signer : Nat × scheme.GivrePublicCommitments}
    (h : signer ∈ (replica.takeSigners count).2) :
    (replica.publicCommitmentsPool.getD signer.1 []).getLast? = some signer.2 := by
  obtain ⟨supply, hsupply, hlast⟩ := mem_popCommitments h
  rw [Std.ExtTreeMap.mem_toList_iff_getElem?_eq_some] at hsupply
  rw [Std.ExtTreeMap.getD_eq_getD_getElem?, hsupply]
  exact hlast

theorem getD_takeSigners (replica : Replica scheme) (count index : Nat) :
    (replica.takeSigners count).1.publicCommitmentsPool.getD index [] =
      if index ∈ (replica.takeSigners count).2.map Prod.fst then
        (replica.publicCommitmentsPool.getD index []).dropLast
      else replica.publicCommitmentsPool.getD index [] := by
  suffices hfold : ∀ (signers : Signers scheme)
      (pool : Std.ExtTreeMap Nat (List scheme.GivrePublicCommitments)),
      (signers.map Prod.fst).Nodup →
      (signers.foldl (fun pool signer => pool.insert signer.1 (pool.getD signer.1 []).dropLast)
        pool).getD index [] =
        if index ∈ signers.map Prod.fst then (pool.getD index []).dropLast
        else pool.getD index [] from
    hfold _ _ (replica.takeSigners_nodup count)
  intro signers
  induction signers with
  | nil => exact fun pool _ => rfl
  | cons signer rest ih =>
      intro pool hnodup
      rw [List.map_cons, List.nodup_cons] at hnodup
      rw [List.foldl_cons, ih _ hnodup.2, Std.ExtTreeMap.getD_insert, List.map_cons]
      by_cases heq : index = signer.1
      · subst heq
        rw [if_neg hnodup.1, if_pos (compare_eq_iff_eq.mpr rfl), if_pos List.mem_cons_self]
      · have hcompare : compare signer.1 index ≠ .eq :=
          fun hcompare => heq (compare_eq_iff_eq.mp hcompare).symm
        rw [if_neg hcompare]
        simp only [List.mem_cons, heq, false_or]

/-- Taking signers moves commitments from the pool to the list. -/
theorem count_takeSigners (replica : Replica scheme) (count index : Nat)
    (publicCommitments : scheme.GivrePublicCommitments) :
    ((replica.takeSigners count).1.publicCommitmentsPool.getD index []).count publicCommitments +
        (replica.takeSigners count).2.count (index, publicCommitments) =
      (replica.publicCommitmentsPool.getD index []).count publicCommitments := by
  have hnodup := replica.takeSigners_nodup count
  rw [getD_takeSigners]
  split
  next hmem =>
    obtain ⟨⟨index, taken⟩, hsigner, rfl⟩ := List.mem_map.mp hmem
    have hlast := takeSigners_last hsigner
    obtain ⟨front, hfront⟩ := List.getLast?_eq_some_iff.mp hlast
    rw [hfront, List.dropLast_concat, List.count_append, List.count_singleton]
    congr 1
    by_cases heq : taken = publicCommitments
    · subst heq
      rw [List.count_eq_one_of_mem (List.Nodup.of_map _ hnodup) hsigner]
      simp
    · have hother : (index, publicCommitments) ∉ (replica.takeSigners count).2 := by
        intro hother
        have hlast' := takeSigners_last hother
        exact heq (Option.some.inj (hlast.symm.trans hlast'))
      rw [List.count_eq_zero_of_not_mem hother]
      simp [heq]
  next hmem =>
    have hother : (index, publicCommitments) ∉ (replica.takeSigners count).2 :=
      fun hother => hmem (List.mem_map.mpr ⟨_, hother, rfl⟩)
    rw [List.count_eq_zero_of_not_mem hother, Nat.add_zero]

/-- The signers that are listed along a history. -/
def listedIn (history : List (Event scheme)) : Signers scheme :=
  (generics history).flatMap fun entry => entry.1.signers

/-- The supplies of a replica among messages. -/
def supplyOf (index : Nat) (message : ToReplica scheme) :
    Option (List scheme.GivrePublicCommitments) :=
  message.supply?.bind fun entry => if entry.1 = index then some entry.2 else none

theorem messages_supplyOf (event : Event scheme) (index : Nat) :
    event.messages (supplyOf index) = (event.messages ToReplica.supply?).filterMap
      fun entry => if entry.1 = index then some entry.2 else none :=
  event.messages_bind ToReplica.supply? _

/-- The commitments that a replica has been able to list of another one, or of itself. -/
def supplied (history : List (Event scheme)) (replica : Replica scheme) (index : Nat) :
    List scheme.GivrePublicCommitments :=
  (receivedIn (supplyOf index) history).flatten ++
    if index = replica.signerIndex then drawn replica.cryptoConfig.keyShare replica.numDraw else []

theorem listedIn_concat (history : List (Event scheme)) (event : Event scheme) :
    listedIn (history ++ [event]) =
      listedIn history ++ event.generics.flatMap fun entry => entry.1.signers := by
  simp [listedIn, generics_concat]

/-- The law of the pool: what is listed or may still be has been supplied. -/
def Pools (listed : Signers scheme) (supplied : Nat → List scheme.GivrePublicCommitments)
    (replica : Replica scheme) : Prop :=
  ∀ index publicCommitments,
    (replica.publicCommitmentsPool.getD index []).count publicCommitments +
      listed.count (index, publicCommitments) ≤ (supplied index).count publicCommitments

theorem getD_insert (pool : Std.ExtTreeMap Nat (List scheme.GivrePublicCommitments))
    (supplier index : Nat) (supply : List scheme.GivrePublicCommitments) :
    (pool.insert supplier supply).getD index [] =
      if index = supplier then supply else pool.getD index [] := by
  rw [Std.ExtTreeMap.getD_insert]
  by_cases heq : index = supplier
  · rw [if_pos heq, if_pos (compare_eq_iff_eq.mpr heq.symm)]
  · rw [if_neg heq, if_neg fun hcompare => heq (compare_eq_iff_eq.mp hcompare).symm]

/-- A refill puts no more into the pool than has been drawn. -/
theorem Restocked.pool_le {next : Replica scheme}
    {sent : List (Nat × List scheme.GivrePublicCommitments)} (h : Restocked replica next sent)
    (index : Nat) (publicCommitments : scheme.GivrePublicCommitments) :
    (next.publicCommitmentsPool.getD index []).count publicCommitments +
        (if index = replica.signerIndex then
          drawn replica.cryptoConfig.keyShare replica.numDraw else []).count publicCommitments ≤
      (replica.publicCommitmentsPool.getD index []).count publicCommitments +
        (if index = replica.signerIndex then
          drawn replica.cryptoConfig.keyShare next.numDraw else []).count publicCommitments := by
  cases h with
  | enough _ hdraw hpool => rw [hdraw, hpool]
  | backup _ _ hdraw hpool =>
      rw [hdraw, hpool, drawn_supply]
      apply Nat.add_le_add_left
      split
      · rw [List.count_append]
        exact Nat.le_add_right _ _
      · exact Nat.le_refl _
  | leader _ _ hdraw hpool =>
      rw [hdraw, hpool, drawn_supply, getD_insert]
      split
      next =>
        rw [List.count_append]
        have hdedup := (List.dedup_sublist (replica.drawSupply.map Prod.fst)).count_le
          publicCommitments
        omega
      next => exact Nat.le_refl _

end Replica

variable {coreConfig : ReplicaCoreConfig} {cryptoConfig : CryptoConfig scheme}
  {history : List (Replica.Event scheme)} {replica : Replica scheme}

theorem LocalRun.pools (hrun : LocalRun coreConfig cryptoConfig history replica) :
    replica.Pools (Replica.listedIn history) (Replica.supplied history replica) := by
  induction hrun with
  | start hinit =>
      subst hinit
      intro index publicCommitments
      exact Nat.zero_le _
  | @step history replica event next hprev hstep ih =>
      have heffect := hstep.effect
      have hcrypto := heffect.cryptoConfig
      have hindex : next.signerIndex = replica.signerIndex := by
        have hconfig := (heffect.grows (LocalRun.stored hprev)).config
        rw [Replica.signerIndex, Replica.signerIndex, hconfig]
      intro index publicCommitments
      have hold := ih index publicCommitments
      unfold Replica.supplied at hold ⊢
      rw [Replica.listedIn_concat, Replica.receivedIn_concat, hindex, hcrypto]
      simp only [List.count_append, List.flatten_append] at hold ⊢
      cases heffect.trades (LocalRun.stored hprev) with
      | stock hrestocked hgenerics hreceives =>
          have hreceives' : event.receives.bind (Replica.supplyOf index) = none := by
            unfold Replica.supplyOf
            rw [← Option.bind_assoc, hreceives, Option.bind_none]
          rw [hgenerics, hreceives']
          simp only [List.flatMap_nil, List.count_nil, Option.toList_none, List.flatten_nil, add_zero]
          have hle := hrestocked.pool_le index publicCommitments
          simp only [Replica.spend_pool, Replica.spend_numDraw, Replica.spend_cryptoConfig,
            Replica.spend_signerIndex] at hle
          omega
      | @supply supplier supply hevent hnext =>
          subst hevent hnext
          change ((replica.publicCommitmentsPool.insert supplier
            (replica.publicCommitmentsPool.getD supplier [] ++ supply)).getD index []).count _ +
            (_ + 0) ≤ _ + (if supplier = index then some supply else none).toList.flatten.count _ + _
          rw [Replica.getD_insert]
          by_cases heq : supplier = index
          · subst heq
            rw [if_pos rfl, if_pos rfl, List.count_append, Option.toList_some, List.flatten_singleton]
            change _ ≤ _ + List.count publicCommitments
              (if supplier = replica.signerIndex then
                Replica.drawn replica.cryptoConfig.keyShare replica.numDraw else []) at hold
            change _ ≤ _ + List.count publicCommitments
              (if supplier = replica.signerIndex then
                Replica.drawn replica.cryptoConfig.keyShare replica.numDraw else [])
            omega
          · rw [if_neg (Ne.symm heq), if_neg heq]
            exact hold
      | propose hevent hlength hnonces hdraw hpool =>
          subst hevent
          have htaken := replica.count_takeSigners replica.numSigner index publicCommitments
          change _ + (_ + List.count _ ((replica.takeSigners replica.numSigner).2 ++ [])) ≤ _ + 0 + _
          rw [hpool, hdraw, List.append_nil]
          omega

/-- Only a backup supplies commitments, of its own. -/
theorem LocalRun.sent_supplies_nil (hrun : LocalRun coreConfig cryptoConfig history replica)
    {index : Nat} (hindex : index ≠ coreConfig.id ∨ index = 0) :
    Replica.sentIn (Replica.supplyOf index) history = [] := by
  induction hrun with
  | start => rfl
  | @step history replica event next hprev hstep ih =>
      rw [Replica.sentIn_concat, ih, List.nil_append, Replica.messages_supplyOf]
      cases hstep.effect.trades (LocalRun.stored hprev) with
      | stock hrestocked =>
          generalize event.messages ToReplica.supply? = sent at hrestocked
          cases hrestocked with
          | enough | leader => rfl
          | backup hprimary =>
              have hid : (replica.spend event).signerIndex = coreConfig.id := by
                rw [replica.spend_signerIndex, Replica.signerIndex, LocalRun.config hprev]
              have hne : (replica.spend event).signerIndex ≠ index := by
                rintro rfl
                have hbackup : (0 == (replica.spend event).signerIndex) = false := hprimary
                rcases hindex with hne | hzero
                · exact hne hid
                · rw [hzero] at hbackup
                  cases hbackup
              exact List.filterMap_cons_none (if_neg hne)
      | supply hevent | propose hevent =>
          subst hevent
          rfl

/-- A replica supplies each commitment at most once for each draw. -/
theorem LocalRun.sent_supplies (hrun : LocalRun coreConfig cryptoConfig history replica)
    (index : Nat) (publicCommitments : scheme.GivrePublicCommitments) :
    ((Replica.sentIn (Replica.supplyOf index) history).flatten).count publicCommitments ≤
      (Replica.drawn replica.cryptoConfig.keyShare replica.numDraw).count publicCommitments := by
  induction hrun with
  | start hinit =>
      subst hinit
      exact Nat.zero_le _
  | @step history replica event next hprev hstep ih =>
      rw [Replica.sentIn_concat, hstep.effect.cryptoConfig, List.flatten_append, List.count_append,
        Replica.messages_supplyOf]
      cases hstep.effect.trades (LocalRun.stored hprev) with
      | stock hrestocked =>
          generalize event.messages ToReplica.supply? = sent at hrestocked
          cases hrestocked with
          | enough _ hdraw =>
              rw [hdraw, replica.spend_numDraw]
              exact ih
          | leader _ _ hdraw =>
              rw [hdraw, replica.spend_numDraw, replica.spend_cryptoConfig, Replica.drawn_supply,
                List.count_append]
              exact ih.trans (Nat.le_add_right _ _)
          | backup _ _ hdraw =>
              rw [hdraw, replica.spend_numDraw, replica.spend_cryptoConfig, replica.spend_drawSupply,
                Replica.drawn_supply, List.count_append]
              refine Nat.add_le_add ih ?_
              by_cases heq : (replica.spend event).signerIndex = index
              · simp only [List.filterMap_cons, if_pos heq, List.filterMap_nil, List.flatten_singleton]
                exact (List.dedup_sublist _).count_le _
              · simp only [List.filterMap_cons, if_neg heq, List.filterMap_nil, List.flatten_nil]
                exact Nat.zero_le _
      | supply hevent hnext =>
          subst hevent hnext
          exact ih
      | propose hevent _ _ hdraw =>
          subst hevent
          rw [hdraw]
          exact ih

/-- A block lists the commitments of a quorum, one for each of its members. -/
theorem LocalRun.listings (hrun : LocalRun coreConfig cryptoConfig history replica) :
    ∀ entry ∈ Replica.generics history,
      entry.1.signers.length = coreConfig.spec.numReplica - coreConfig.spec.numFaulty ∧
        (entry.1.signers.map Prod.fst).Nodup := by
  induction hrun with
  | start =>
      intro entry hentry
      cases hentry
  | @step history replica event next hprev hstep ih =>
      intro entry hentry
      rw [Replica.generics_concat] at hentry
      rcases List.mem_append.mp hentry with hold | hnew
      · exact ih entry hold
      · cases hstep.effect.trades (LocalRun.stored hprev) with
        | stock _ hgenerics =>
            rw [hgenerics] at hnew
            cases hnew
        | supply hevent =>
            subst hevent
            cases hnew
        | propose hevent hlength =>
            subst hevent
            obtain rfl := List.mem_singleton.mp hnew
            have hle := replica.length_takeSigners replica.numSigner
            have hnum : replica.numSigner =
                coreConfig.spec.numReplica - coreConfig.spec.numFaulty := by
              rw [Replica.numSigner, LocalRun.config hprev]
            exact ⟨(Nat.le_antisymm hle hlength).trans hnum, replica.takeSigners_nodup _⟩

end BftKit.Hotstuff
