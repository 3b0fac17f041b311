import BftKit.Hotstuff.Network
import BftKit.Hotstuff.Signing

/-! # Commitments and nonces

A replica draws commitments with their nonces and supplies the commitments to the
leader, which lists each of them for one block. A nonce is spent on the signature of
that block.
-/

namespace BftKit.Hotstuff

open Foundation Threshold

variable {scheme : ThresholdScheme}

def ToReplica.supply? : ToReplica scheme → Option (Nat × List scheme.GivrePublicCommitments)
  | .publicCommitmentsSupply index supply => some (index, supply)
  | .generic _ _ | .voteGeneric _ => none

def ToReplica.vote? : ToReplica scheme → Option (Message.VoteGeneric scheme)
  | .voteGeneric vote => some vote
  | .generic _ _ | .publicCommitmentsSupply _ _ => none

namespace Replica

variable {replica next : Replica scheme} {event : Event scheme} {Item : Type}

/-- What an event picks from its messages. -/
def Event.messages (pick : ToReplica scheme → Option Item) (event : Event scheme) : List Item :=
  event.actions.filterMap fun action => action.message?.bind pick

/-- The commitment whose nonce an event spends, and the digest that it signs. -/
def Event.spent? : Event scheme → Option (scheme.GivrePublicCommitments × Digest)
  | .perform _ signed _ => signed
  | .call _ _ | .release _ _ => none

/-- What is picked from the messages sent along a history. -/
def sentIn (pick : ToReplica scheme → Option Item) (history : List (Event scheme)) : List Item :=
  history.flatMap (Event.messages pick)

/-- What is picked from the messages received along a history. -/
def receivedIn (pick : ToReplica scheme → Option Item) (history : List (Event scheme)) :
    List Item :=
  history.filterMap fun event => event.receives.bind pick

def spentIn (history : List (Event scheme)) : List (scheme.GivrePublicCommitments × Digest) :=
  history.filterMap Event.spent?

theorem sentIn_concat (pick : ToReplica scheme → Option Item) (history : List (Event scheme))
    (event : Event scheme) :
    sentIn pick (history ++ [event]) = sentIn pick history ++ event.messages pick := by
  simp [sentIn]

theorem receivedIn_concat (pick : ToReplica scheme → Option Item) (history : List (Event scheme))
    (event : Event scheme) :
    receivedIn pick (history ++ [event]) =
      receivedIn pick history ++ (event.receives.bind pick).toList := by
  unfold receivedIn
  rw [List.filterMap_append]
  cases hpicked : event.receives.bind pick <;> simp [hpicked]

/-- What is picked in two stages. -/
theorem Event.messages_bind {Found : Type} (pick : ToReplica scheme → Option Item)
    (more : Item → Option Found) (event : Event scheme) :
    event.messages (fun message => (pick message).bind more) =
      (event.messages pick).filterMap more := by
  unfold messages
  rw [List.filterMap_filterMap]
  apply List.filterMap_congr
  intro action _
  cases action.message? <;> rfl

theorem sentIn_bind {Found : Type} (pick : ToReplica scheme → Option Item)
    (more : Item → Option Found) (history : List (Event scheme)) :
    sentIn (fun message => (pick message).bind more) history =
      (sentIn pick history).filterMap more := by
  unfold sentIn
  rw [List.filterMap_flatMap]
  exact List.flatMap_congr fun event _ => event.messages_bind pick more

theorem receivedIn_bind {Found : Type} (pick : ToReplica scheme → Option Item)
    (more : Item → Option Found) (history : List (Event scheme)) :
    receivedIn (fun message => (pick message).bind more) history =
      (receivedIn pick history).filterMap more := by
  unfold receivedIn
  rw [List.filterMap_filterMap]
  apply List.filterMap_congr
  intro event _
  cases event.receives <;> rfl

theorem spentIn_concat (history : List (Event scheme)) (event : Event scheme) :
    spentIn (history ++ [event]) = spentIn history ++ event.spent?.toList := by
  unfold spentIn
  rw [List.filterMap_append]
  cases hspent : event.spent? <;> simp [hspent]

theorem signed_eq_spentIn (history : List (Event scheme)) :
    signed history = (spentIn history).map Prod.snd := by
  unfold signed spentIn
  rw [List.map_filterMap]
  apply List.filterMap_congr
  intro event _
  cases event <;> rfl

/-- The replica without the nonce that an event spends. -/
def spend (replica : Replica scheme) (event : Event scheme) : Replica scheme :=
  match event.spent? with
  | none => replica
  | some (publicCommitments, _) =>
      { replica with nonces := replica.nonces.erase publicCommitments }

section

variable (replica : Replica scheme) (event : Event scheme)

@[simp] theorem spend_pool :
    (replica.spend event).publicCommitmentsPool = replica.publicCommitmentsPool := by
  unfold spend
  split <;> rfl

@[simp] theorem spend_numDraw : (replica.spend event).numDraw = replica.numDraw := by
  unfold spend
  split <;> rfl

@[simp] theorem spend_cryptoConfig : (replica.spend event).cryptoConfig = replica.cryptoConfig := by
  unfold spend
  split <;> rfl

@[simp] theorem spend_signerIndex : (replica.spend event).signerIndex = replica.signerIndex := by
  unfold spend
  split <;> rfl

@[simp] theorem spend_drawSupply : (replica.spend event).drawSupply = replica.drawSupply := by
  unfold spend
  split <;> rfl

end

/-- What a refill does, if there is one, with the supplies that it sends. -/
inductive Restocked (replica next : Replica scheme) :
    List (Nat × List scheme.GivrePublicCommitments) → Prop
  | enough (hnonces : next.nonces = replica.nonces) (hdraw : next.numDraw = replica.numDraw)
      (hpool : next.publicCommitmentsPool = replica.publicCommitmentsPool) :
      Restocked replica next []
  | leader (hprimary : replica.isPrimary = true)
      (hnonces : next.nonces = Map.extend replica.nonces replica.drawSupply)
      (hdraw : next.numDraw = replica.numDraw + replica.cryptoConfig.supplySize)
      (hpool : next.publicCommitmentsPool = replica.publicCommitmentsPool.insert
        replica.signerIndex (replica.drawSupply.map Prod.fst).dedup) :
      Restocked replica next []
  | backup (hprimary : replica.isPrimary = false)
      (hnonces : next.nonces = Map.extend replica.nonces replica.drawSupply)
      (hdraw : next.numDraw = replica.numDraw + replica.cryptoConfig.supplySize)
      (hpool : next.publicCommitmentsPool = replica.publicCommitmentsPool) :
      Restocked replica next [(replica.signerIndex, (replica.drawSupply.map Prod.fst).dedup)]

/-- The supplies among actions. -/
def supplies (actions : List (Action scheme)) : List (Nat × List scheme.GivrePublicCommitments) :=
  actions.filterMap fun action => action.message?.bind ToReplica.supply?

theorem refillNonces_restocked (replica : Replica scheme) :
    Restocked replica replica.refillNonces.1 (supplies replica.refillNonces.2) := by
  unfold refillNonces
  split
  next hprimary => exact .leader hprimary rfl rfl rfl
  next hprimary => exact .backup (by simpa using hprimary) rfl rfl rfl

theorem Refilled.restocked {actions : List (Action scheme)} (h : Refilled replica next actions) :
    Restocked replica next (supplies actions) := by
  cases h with
  | enough => exact .enough rfl rfl rfl
  | refill => exact refillNonces_restocked replica

/-- Votes leave the stock alone. -/
theorem VoteTaken.stock {vote : Message.VoteGeneric scheme} (h : VoteTaken replica vote next)
    (hstored : replica.core.Stored) :
    (next.nonces = replica.nonces ∧ next.numDraw = replica.numDraw ∧
      next.publicCommitmentsPool = replica.publicCommitmentsPool) ∧
      next.cryptoConfig = replica.cryptoConfig ∧ next.core.config = replica.core.config := by
  cases h with
  | share => exact ⟨⟨rfl, rfl, rfl⟩, rfl, rfl⟩
  | quorum _ _ hhandle =>
      obtain ⟨core, pushed, hcore, rfl⟩ := handle_eq_ok.mp hhandle
      exact ⟨⟨rfl, rfl, rfl⟩, rfl, (hstored.handle hcore).2.config⟩

theorem Restocked.congr {taken : Replica scheme}
    {sent : List (Nat × List scheme.GivrePublicCommitments)} (h : Restocked taken next sent)
    (hstock : taken.nonces = replica.nonces ∧ taken.numDraw = replica.numDraw ∧
      taken.publicCommitmentsPool = replica.publicCommitmentsPool)
    (hcrypto : taken.cryptoConfig = replica.cryptoConfig)
    (hconfig : taken.core.config = replica.core.config) : Restocked replica next sent := by
  obtain ⟨hnonces, hdraw, hpool⟩ := hstock
  have hsupply : taken.drawSupply = replica.drawSupply := by
    rw [drawSupply, drawSupply, hdraw, hcrypto]
  have hindex : taken.signerIndex = replica.signerIndex := by
    rw [signerIndex, signerIndex, hconfig]
  have hprimary : taken.isPrimary = replica.isPrimary := by
    change (0 == taken.core.config.id) = (0 == replica.core.config.id)
    rw [hconfig]
  cases h with
  | enough => exact .enough (by rwa [← hnonces]) (by rwa [← hdraw]) (by rwa [← hpool])
  | leader hleader hnonces' hdraw' hpool' =>
      apply Restocked.leader
      · rwa [← hprimary]
      · rwa [← hnonces, ← hsupply]
      · rwa [← hdraw, ← hcrypto]
      · rwa [← hpool, ← hsupply, ← hindex]
  | backup hbackup hnonces' hdraw' hpool' =>
      rw [hsupply, hindex]
      apply Restocked.backup
      · rwa [← hprimary]
      · rwa [← hnonces, ← hsupply]
      · rwa [← hdraw, ← hcrypto]
      · rwa [← hpool]

/-- What a step does to the stock of a replica. -/
inductive Trades (replica : Replica scheme) (event : Event scheme) (next : Replica scheme) : Prop
  | stock (hrestocked : Restocked (replica.spend event) next (event.messages ToReplica.supply?))
      (hgenerics : event.generics = []) (hreceives : event.receives.bind ToReplica.supply? = none)
  | supply {index supply}
      (hevent : event = .call (.receive (.publicCommitmentsSupply index supply)) [])
      (hnext : next = replica.receiveSupply index supply)
  | propose {data block}
      (hevent : event = .perform (.propose data) none [.sendToAllReplicas (.generic
        { block := scheme.digest block
          signers := (replica.takeSigners replica.numSigner).2 } block)])
      (hlength : replica.numSigner ≤ (replica.takeSigners replica.numSigner).2.length)
      (hnonces : next.nonces = replica.nonces) (hdraw : next.numDraw = replica.numDraw)
      (hpool : next.publicCommitmentsPool =
        (replica.takeSigners replica.numSigner).1.publicCommitmentsPool)

theorem VotePerformed.restocked {node : Node} {signers : Signers scheme}
    {actions : List (Action scheme)} {signed : Option (scheme.GivrePublicCommitments × Digest)}
    {key : Nat} {rest : ReplicaCoreActions}
    (h : VotePerformed { replica with coreActions := rest } node signers next actions)
    (hstored : replica.core.Stored)
    (hsigned : signed = (replica.listed signers).map fun publicCommitments =>
      (publicCommitments, node.digest)) :
    Restocked (replica.spend (.perform (.vote key) signed actions)) next (supplies actions) := by
  subst hsigned
  cases h with
  | unlisted hlisted =>
      have hlisted' : replica.listed signers = none := hlisted
      rw [hlisted']
      exact .enough rfl rfl rfl
  | unsigned hlisted =>
      have hlisted' : replica.listed signers = some _ := hlisted
      rw [hlisted']
      exact .enough rfl rfl rfl
  | @signed publicCommitments nonce share _ _ hlisted hnonce hsign hcast =>
      have hlisted' : replica.listed signers = some publicCommitments := hlisted
      rw [hlisted']
      cases hcast with
      | leader _ htaken hrefilled =>
          obtain ⟨hstock, hcrypto, hconfig⟩ := htaken.stock hstored
          exact hrefilled.restocked.congr hstock hcrypto hconfig
      | backup _ hrefilled => exact hrefilled.restocked.congr ⟨rfl, rfl, rfl⟩ rfl rfl

theorem VotePerformed.generics {node : Node} {signers : Signers scheme}
    {actions : List (Action scheme)} (h : VotePerformed replica node signers next actions) :
    actions.filterMap (fun action => action.message?.bind ToReplica.generic?) = [] := by
  cases h with
  | unlisted | unsigned => rfl
  | signed _ _ _ hcast =>
      cases hcast with
      | leader _ _ hrefilled => exact hrefilled.generic
      | backup _ hrefilled => exact hrefilled.generic

theorem Effect.trades (h : Effect replica event next) (hstored : replica.core.Stored) :
    Trades replica event next := by
  cases h with
  | init =>
      refine .stock (refillNonces_restocked replica) ?_ rfl
      refine List.filterMap_eq_nil_iff.mpr fun action haction => ?_
      rw [refillNonces_generic replica haction]
      rfl
  | request _ hhandle | release _ _ hhandle =>
      obtain ⟨core, pushed, -, rfl⟩ := handle_eq_ok.mp hhandle
      exact .stock (.enough rfl rfl rfl) rfl rfl
  | tick | ignore | accept | park | defer | finalize => exact .stock (.enough rfl rfl rfl) rfl rfl
  | vote _ htaken =>
      obtain ⟨⟨hnonces, hdraw, hpool⟩, -⟩ := htaken.stock hstored
      exact .stock (.enough hnonces hdraw hpool) rfl rfl
  | supply => exact .supply rfl rfl
  | propose _ _ _ _ hlength _ hhandle =>
      obtain ⟨core, pushed, -, rfl⟩ := handle_eq_ok.mp hhandle
      exact .propose rfl hlength rfl rfl rfl
  | perform _ _ _ _ hvote =>
      exact .stock (hvote.restocked hstored rfl) hvote.generics rfl

/-- A nonce that a step spends on the node that it votes for. -/
structure Spending (replica : Replica scheme) (event : Event scheme) (key : Nat)
    (signers : Signers scheme) (publicCommitments : scheme.GivrePublicCommitments)
    (nonce : scheme.GivreSecretNonces) : Prop where
  queued : .vote key ∈ replica.coreActions
  lt : key < replica.core.nodes.length
  listed : replica.listed signers = some publicCommitments
  spent : event.spent? = some (publicCommitments, replica.core.digestOf key)
  signers : replica.blockSigners.lookup (replica.core.digestOf key) = some signers
  nonce : replica.nonces.lookup publicCommitments = some nonce

theorem Effect.spending (h : Effect replica event next) :
    event.spent? = none ∨ ∃ key signers publicCommitments nonce,
      Spending replica event key signers publicCommitments nonce := by
  cases h with
  | init | tick | request | ignore | accept | park | vote | supply | defer | release | propose
  | finalize => exact .inl rfl
  | @perform key rest node signers next actions _ hqueue hnode hsigners hvote =>
      have hdigest : node.digest = replica.core.digestOf key := by
        rw [ReplicaCore.digestOf, ReplicaCore.nodeAt_eq hnode]
      have hspending : ∀ {publicCommitments nonce}, replica.listed signers = some publicCommitments →
          replica.nonces.lookup publicCommitments = some nonce →
          Spending replica (.perform (.vote key)
            ((replica.listed signers).map fun publicCommitments => (publicCommitments, node.digest))
            actions) key signers publicCommitments nonce := by
        intro publicCommitments nonce hlisted hnonce
        refine ⟨?_, ?_, hlisted, ?_, ?_, hnonce⟩
        · rw [hqueue]
          exact List.mem_cons_self
        · exact (List.getElem?_eq_some_iff.mp hnode).1
        · rw [← hdigest, hlisted]
          rfl
        · rwa [← hdigest]
      cases hvote with
      | unlisted hlisted =>
          have hlisted' : replica.listed signers = none := hlisted
          rw [hlisted']
          exact .inl rfl
      | unsigned hlisted hnonce => exact .inr ⟨_, _, _, _, hspending hlisted hnonce⟩
      | signed hlisted hnonce => exact .inr ⟨_, _, _, _, hspending hlisted hnonce⟩

/-! ## Draws -/

/-- The commitments of the first draws. -/
def drawn (keyShare : scheme.GivreKeyShare) (count : Nat) : List scheme.GivrePublicCommitments :=
  (List.range count).map fun draw => (scheme.commit keyShare draw).1

theorem mem_drawn {keyShare : scheme.GivreKeyShare} {count : Nat}
    {publicCommitments : scheme.GivrePublicCommitments} :
    publicCommitments ∈ drawn keyShare count ↔
      ∃ draw < count, (scheme.commit keyShare draw).1 = publicCommitments := by
  simp [drawn]

theorem drawn_supply (replica : Replica scheme) :
    drawn replica.cryptoConfig.keyShare (replica.numDraw + replica.cryptoConfig.supplySize) =
      drawn replica.cryptoConfig.keyShare replica.numDraw ++ replica.drawSupply.map Prod.fst := by
  unfold drawn drawSupply
  rw [List.range_eq_range', ← List.range'_append_1, List.map_append, List.map_map,
    ← List.range_eq_range', Nat.zero_add]
  rfl

/-- The nonces of a replica are those of its draws that it has not spent. -/
structure Spends (spent : List (scheme.GivrePublicCommitments × Digest))
    (replica : Replica scheme) :
    Prop where
  nonce : ∀ publicCommitments nonce, replica.nonces.lookup publicCommitments = some nonce →
    ∃ draw < replica.numDraw,
      scheme.commit replica.cryptoConfig.keyShare draw = (publicCommitments, nonce)
  kept : ∀ publicCommitments ∈ drawn replica.cryptoConfig.keyShare replica.numDraw,
    (replica.nonces.lookup publicCommitments).isSome ∨ publicCommitments ∈ spent.map Prod.fst
  gone : ∀ publicCommitments ∈ spent.map Prod.fst,
    replica.nonces.lookup publicCommitments = none ∧
      publicCommitments ∈ drawn replica.cryptoConfig.keyShare replica.numDraw
  once : (spent.map Prod.fst).Nodup

namespace Spends

variable {spent : List (scheme.GivrePublicCommitments × Digest)}

theorem congr (h : Spends spent replica) (hnonces : next.nonces = replica.nonces)
    (hdraw : next.numDraw = replica.numDraw) (hconfig : next.cryptoConfig = replica.cryptoConfig) :
    Spends spent next := by
  obtain ⟨hnonce, hkept, hgone, honce⟩ := h
  rw [← hnonces, ← hdraw, ← hconfig] at hnonce hkept hgone
  exact ⟨hnonce, hkept, hgone, honce⟩

theorem spend (h : Spends spent replica) (heffect : Effect replica event next) :
    Spends (spent ++ event.spent?.toList) (replica.spend event) := by
  rcases heffect.spending with hnone | ⟨key, signers, publicCommitments, nonce, hspending⟩
  · rw [Replica.spend, hnone, Option.toList_none, List.append_nil]
    exact h
  · rw [Replica.spend, hspending.spent, Option.toList_some]
    have hmem : ∀ other,
        other ∈ (spent ++ [(publicCommitments, replica.core.digestOf key)]).map Prod.fst ↔
        other ∈ spent.map Prod.fst ∨ other = publicCommitments := by
      intro other
      rw [List.map_append, List.mem_append, List.map_singleton, List.mem_singleton]
    obtain ⟨draw, hdraw, hcommit⟩ := h.nonce _ _ hspending.nonce
    constructor
    · intro other nonce' hlookup
      rw [Map.lookup_erase] at hlookup
      split at hlookup
      next => cases hlookup
      next => exact h.nonce other nonce' hlookup
    · intro other hother
      rw [Map.lookup_erase, hmem]
      by_cases heq : other = publicCommitments
      · exact .inr (.inr heq)
      · rw [if_neg heq]
        exact (h.kept other hother).imp_right .inl
    · intro other hother
      rw [Map.lookup_erase]
      rcases (hmem other).mp hother with hold | rfl
      · obtain ⟨hnone, hdrawn⟩ := h.gone other hold
        refine ⟨?_, hdrawn⟩
        rw [hnone, ite_self]
      · exact ⟨if_pos rfl, mem_drawn.mpr ⟨draw, hdraw, by rw [hcommit]⟩⟩
    · rw [List.map_append, List.map_singleton]
      refine List.nodup_append.mpr ⟨h.once, List.nodup_singleton _, ?_⟩
      intro other hother other' hother' heq
      obtain rfl := List.mem_singleton.mp hother'
      subst heq
      have hnone := (h.gone _ hother).1
      rw [hspending.nonce] at hnone
      cases hnone

/-- Fresh draws come with their nonces. -/
theorem draw (h : Spends spent replica)
    (hnonces : next.nonces = Map.extend replica.nonces replica.drawSupply)
    (hdraw : next.numDraw = replica.numDraw + replica.cryptoConfig.supplySize)
    (hconfig : next.cryptoConfig = replica.cryptoConfig)
    (hfresh : (drawn next.cryptoConfig.keyShare next.numDraw).Nodup) : Spends spent next := by
  rw [hconfig, hdraw, drawn_supply] at hfresh
  have hdisjoint := (List.nodup_append.mp hfresh).2.2
  constructor
  · intro publicCommitments nonce hlookup
    rw [hnonces] at hlookup
    rw [hconfig, hdraw]
    rcases Map.lookup_extend hlookup with hentry | hold
    · obtain ⟨draw, hdraw', hcommit⟩ := List.mem_map.mp hentry
      obtain ⟨-, hlt⟩ := List.mem_range'_1.mp hdraw'
      exact ⟨draw, hlt, hcommit⟩
    · obtain ⟨draw, hlt, hcommit⟩ := h.nonce _ _ hold
      exact ⟨draw, by omega, hcommit⟩
  · intro publicCommitments hdrawn
    rw [hconfig, hdraw, drawn_supply] at hdrawn
    rw [hnonces, Map.isSome_lookup_extend]
    rcases List.mem_append.mp hdrawn with hold | hnew
    · exact (h.kept _ hold).imp_left .inr
    · exact .inl (.inl hnew)
  · intro publicCommitments hspent
    obtain ⟨hnone, hdrawn⟩ := h.gone _ hspent
    rw [hnonces, hconfig, hdraw, drawn_supply]
    refine ⟨?_, List.mem_append_left _ hdrawn⟩
    rw [← Option.not_isSome_iff_eq_none, Map.isSome_lookup_extend, hnone]
    rintro (hnew | hsome)
    · exact hdisjoint _ hdrawn _ hnew rfl
    · cases hsome
  · exact h.once

theorem restocked (h : Spends spent replica)
    {sent : List (Nat × List scheme.GivrePublicCommitments)}
    (hrestocked : Restocked replica next sent) (hconfig : next.cryptoConfig = replica.cryptoConfig)
    (hfresh : (drawn next.cryptoConfig.keyShare next.numDraw).Nodup) : Spends spent next := by
  cases hrestocked with
  | enough hnonces hdraw => exact h.congr hnonces hdraw hconfig
  | leader _ hnonces hdraw | backup _ hnonces hdraw => exact h.draw hnonces hdraw hconfig hfresh

theorem step (h : Spends spent replica) (heffect : Effect replica event next)
    (hstored : replica.core.Stored)
    (hfresh : (drawn next.cryptoConfig.keyShare next.numDraw).Nodup) :
    Spends (spent ++ event.spent?.toList) next := by
  have hspent := h.spend heffect
  have hconfig := heffect.cryptoConfig
  have hsame := replica.spend_cryptoConfig event
  cases heffect.trades hstored with
  | stock hrestocked => exact hspent.restocked hrestocked (hconfig.trans hsame.symm) hfresh
  | supply hevent hnext =>
      subst hevent hnext
      exact hspent.congr rfl rfl hconfig
  | propose hevent _ hnonces hdraw =>
      subst hevent
      exact hspent.congr hnonces hdraw hconfig

end Spends

theorem drawn_prefix (keyShare : scheme.GivreKeyShare) {count count' : Nat} (hle : count ≤ count') :
    drawn keyShare count <+: drawn keyShare count' := by
  obtain ⟨more, rfl⟩ := Nat.exists_eq_add_of_le hle
  unfold drawn
  rw [List.range_add, List.map_append]
  exact List.prefix_append _ _

theorem Effect.numDraw_le (h : Effect replica event next) (hstored : replica.core.Stored) :
    replica.numDraw ≤ next.numDraw := by
  cases h.trades hstored with
  | stock hrestocked =>
      generalize event.messages ToReplica.supply? = sent at hrestocked
      cases hrestocked with
      | enough _ hdraw => rw [hdraw, replica.spend_numDraw]
      | leader _ _ hdraw | backup _ _ hdraw =>
          rw [hdraw, replica.spend_numDraw]
          exact Nat.le_add_right _ _
  | supply _ hnext => rw [hnext]; exact Nat.le_refl _
  | propose _ _ _ hdraw => rw [hdraw]

end Replica

variable {coreConfig : ReplicaCoreConfig} {cryptoConfig : CryptoConfig scheme}
  {history : List (Replica.Event scheme)} {replica : Replica scheme}

theorem LocalRun.spends (hrun : LocalRun coreConfig cryptoConfig history replica)
    (hfresh : (Replica.drawn cryptoConfig.keyShare replica.numDraw).Nodup) :
    Replica.Spends (Replica.spentIn history) replica := by
  induction hrun with
  | start hinit =>
      subst hinit
      constructor
      · intro publicCommitments nonce hlookup
        cases hlookup
      · intro publicCommitments hdrawn
        cases hdrawn
      · intro publicCommitments hspent
        cases hspent
      · exact List.nodup_nil
  | @step history replica event next hprev hstep ih =>
      have hstored := LocalRun.stored hprev
      have heffect := hstep.effect
      rw [Replica.spentIn_concat]
      refine (ih ?_).step heffect hstored ?_
      · exact hfresh.sublist (Replica.drawn_prefix _ (heffect.numDraw_le hstored)).sublist
      · rwa [heffect.cryptoConfig, LocalRun.cryptoConfig_eq hprev]

end BftKit.Hotstuff
