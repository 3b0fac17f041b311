import BftKit.Crypto.Collecting
import BftKit.Hotstuff.Ballots

/-! # What a leader waits for

A leader without a quorum certificate for its last block collects votes on it, and has
fewer of them than it takes.
-/

namespace BftKit.Hotstuff

open Foundation Threshold

variable {scheme : ThresholdScheme}

namespace Replica

variable {replica next : Replica scheme} {event : Event scheme}

/-! ## Shares -/

/-- For no block there are as many shares as it takes. -/
def Short (keyShare : scheme.GivreKeyShare) (scratches : Map Digest (QuorumCertScratch scheme)) :
    Prop :=
  ∀ digest scratch, scratches.lookup digest = some scratch →
    ∃ shares, scratch.partialSigs = .givre shares ∧ shares.size < scheme.minSigners keyShare

theorem addPartial_none {shares : Std.ExtTreeMap Nat scheme.GivreSigShare} {index : Nat}
    {partialSig : PartialSig scheme} {context : GivreAggregateContext scheme}
    {partialSigs : PartialSigs scheme}
    (hadd : (PartialSigs.givre shares).addPartial index partialSig (.givre context) =
      (partialSigs, .ok none)) :
    ∃ shares', partialSigs = .givre shares' ∧
      shares'.size < scheme.minSigners context.keyShare := by
  cases partialSig with
  | vec | thresholdCrypto =>
      unfold PartialSigs.addPartial at hadd
      cases (Prod.mk.inj hadd).2
  | givre share =>
      unfold PartialSigs.addPartial at hadd
      dsimp only at hadd
      split at hadd
      next hlt =>
        obtain ⟨rfl, -⟩ := Prod.mk.inj hadd
        exact ⟨_, rfl, hlt⟩
      next =>
        split at hadd
        · cases (Prod.mk.inj hadd).2
        · split at hadd <;> cases (Prod.mk.inj hadd).2

theorem Counted.short {vote : Message.VoteGeneric scheme}
    {scratches : Map Digest (QuorumCertScratch scheme)} (h : Counted replica vote scratches)
    (hshort : Short replica.cryptoConfig.keyShare replica.quorumCertScratches) :
    Short replica.cryptoConfig.keyShare scratches := by
  intro digest scratch hlookup
  cases h with
  | @share collected partialSigs hscratch hadd =>
      rw [Map.lookup_insert] at hlookup
      split at hlookup
      · obtain rfl := Option.some.inj hlookup
        obtain ⟨shares, hshares, -⟩ := hshort _ _ hscratch
        rw [hshares] at hadd
        exact addPartial_none hadd
      · exact hshort digest scratch hlookup
  | quorum hscratch hadd =>
      rw [Map.lookup_erase] at hlookup
      split at hlookup
      · cases hlookup
      · exact hshort digest scratch hlookup

/-! ## The last block -/

/-- The votes on the last block are collected as long as they are missing. -/
def Awaits (replica : Replica scheme) : Prop :=
  replica.core.highNode ≠ replica.core.blockLeaf →
    (replica.quorumCertScratches.lookup
      (replica.core.digestOf (replica.core.nodes.length - 1))).isSome

theorem Awaits.congr (h : replica.Awaits) (hcore : next.core = replica.core)
    (hscratches : next.quorumCertScratches = replica.quorumCertScratches) : next.Awaits := by
  unfold Awaits at h ⊢
  rwa [hcore, hscratches]

theorem Awaits.taken {vote : Message.VoteGeneric scheme} (h : replica.Awaits)
    (hleads : replica.Leads) (htaken : VoteTaken replica vote next) : next.Awaits := by
  cases htaken with
  | share hscratch hadd =>
      intro hwait
      change ((replica.quorumCertScratches.insert _ _).lookup _).isSome
      rw [Map.lookup_insert]
      split
      · rfl
      · exact h hwait
  | quorum hscratch hadd hhandle =>
      -- with the certificate there is nothing to wait for
      obtain ⟨hnode, hwait⟩ := hleads.scratch _ _ hscratch
      obtain ⟨core, pushed, hcore, rfl⟩ := handle_eq_ok.mp hhandle
      have hled := hleads.core
      rw [hleads.core.waiting hwait] at hled
      obtain ⟨-, hhigh, -⟩ := hled.quorumCert hwait hnode hcore
      exact fun hnot => absurd hhigh hnot

theorem Refilled.awaits {actions : List (Action scheme)} (h : replica.Awaits)
    (hrefilled : Refilled replica next actions) : next.Awaits := by
  cases hrefilled with
  | enough => exact h
  | refill => apply h.congr <;> unfold refillNonces <;> split <;> rfl

theorem Awaits.votePerformed (h : replica.Awaits) (hleads : replica.Leads) {node : Node}
    {signers : Signers scheme} {actions : List (Action scheme)}
    (hvote : VotePerformed replica node signers next actions) : next.Awaits := by
  cases hvote with
  | unlisted | unsigned => exact h.congr rfl rfl
  | @signed publicCommitments nonce share _ _ _ _ _ hcast =>
      have hsigned : Leads { replica with
          blockSigners := replica.blockSigners.erase node.digest
          nonces := replica.nonces.erase publicCommitments } :=
        hleads.congr rfl rfl rfl rfl
      have hawaits : Awaits { replica with
          blockSigners := replica.blockSigners.erase node.digest
          nonces := replica.nonces.erase publicCommitments } :=
        h.congr rfl rfl
      cases hcast with
      | leader _ htaken hrefilled => exact Refilled.awaits (hawaits.taken hsigned htaken) hrefilled
      | backup _ hrefilled => exact Refilled.awaits hawaits hrefilled

/-- Steps that receive no block. -/
theorem Awaits.step (h : replica.Awaits) (hleads : replica.Leads)
    (heffect : Effect replica event next) (hreceived : event.received? = none) : next.Awaits := by
  cases heffect with
  | init => apply h.congr <;> unfold refillNonces <;> split <;> rfl
  | tick | ignore => exact h
  | request hidle hhandle =>
      obtain ⟨core, pushed, hcore, rfl⟩ := handle_eq_ok.mp hhandle
      obtain ⟨middle, reactions, beats, hreacted, hbeat, rfl⟩ :=
        hleads.core.line.stored.handle_ok hcore
      have hhigh : core.highNode = middle.highNode := by cases hbeat <;> rfl
      have hleaf : core.blockLeaf = middle.blockLeaf := by cases hbeat <;> rfl
      cases hreacted with
      | request =>
          intro hwait
          change (replica.quorumCertScratches.lookup (core.digestOf (core.nodes.length - 1))).isSome
          rw [hbeat.sameStore.nodes, hbeat.sameStore.digestOf]
          exact h (by rwa [hhigh, hleaf] at hwait)
  | accept | park => cases hreceived
  | vote _ htaken => exact h.taken hleads htaken
  | supply => exact h.congr rfl rfl
  | defer hpending | release hpending => cases hleads.pending.symm.trans hpending
  | propose _ hqueue hblock _ _ _ hhandle =>
      obtain ⟨core, pushed, hcore, rfl⟩ := handle_eq_ok.mp hhandle
      obtain ⟨hplanned, -⟩ := hleads.planned hqueue
      obtain ⟨hnext, hcommands, -⟩ := Leads.next_of_proposalBlock hplanned hblock
      obtain ⟨-, -, hlength, hdigest⟩ := hplanned.proposed hnext hcommands hcore
      intro _
      change ((replica.quorumCertScratches.insert _ _).lookup
        (core.digestOf (core.nodes.length - 1))).isSome
      rw [hlength, Nat.add_sub_cancel, hdigest, Map.lookup_insert, if_pos rfl]
      rfl
  | @perform key rest node signers next actions _ hqueue _ _ hvote =>
      have hawaits : Awaits { replica with coreActions := rest } := h.congr rfl rfl
      exact hawaits.votePerformed (hleads.perform hqueue rfl) hvote
  | finalize => exact h.congr rfl rfl

end Replica

variable {coreConfig : ReplicaCoreConfig} {cryptoConfig : CryptoConfig scheme}
  {history : List (Replica.Event scheme)} {replica : Replica scheme}

/-- No replica ever holds as many shares as it takes. -/
theorem LocalRun.short (hrun : LocalRun coreConfig cryptoConfig history replica)
    (hmin : 0 < scheme.minSigners cryptoConfig.keyShare) :
    Replica.Short cryptoConfig.keyShare replica.quorumCertScratches := by
  induction hrun with
  | start hinit =>
      subst hinit
      intro digest scratch hlookup
      cases hlookup
  | @step history replica event next hprev hstep ih =>
      rw [← LocalRun.cryptoConfig_eq hprev] at ih hmin ⊢
      cases hstep.effect.polls (LocalRun.stored hprev) with
      | keep _ _ _ _ hscratches =>
          rw [hscratches]
          exact ih
      | propose _ _ hscratches =>
          rw [hscratches]
          intro digest scratch hlookup
          rw [Map.lookup_insert] at hlookup
          split at hlookup
          · obtain rfl := Option.some.inj hlookup
            exact ⟨∅, rfl, by simpa using hmin⟩
          · exact ih digest scratch hlookup
      | take _ hcounted => exact hcounted.short ih
      | cast _ _ _ hcast =>
          cases hcast with
          | unsigned _ _ hscratches | send _ _ _ hscratches =>
              rw [hscratches]
              exact ih
          | own _ _ _ hcounted => exact hcounted.short ih

theorem LocalRun.awaits (hrun : LocalRun coreConfig cryptoConfig history replica)
    (hleader : coreConfig.id = 0) (hreceived : Replica.received history = []) :
    replica.Awaits := by
  induction hrun with
  | start hinit =>
      subst hinit
      exact fun hwait => absurd rfl hwait
  | @step history replica event next hprev hstep ih =>
      rw [Replica.received_concat, List.append_eq_nil_iff] at hreceived
      refine (ih hreceived.1).step (LocalRun.leads hprev hleader hreceived.1).1 hstep.effect ?_
      cases hevent : event.received? with
      | none => rfl
      | some received => simp [hevent] at hreceived

end BftKit.Hotstuff
