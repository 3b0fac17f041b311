import BftKit.Crypto.Collecting
import BftKit.Crypto.Transparent
import BftKit.Foundation.Run

/-! # Failed aggregations

Shares are counted whatever their index, and taken out one listed signer after the other.
So an aggregation that fails halfway loses the shares it has come past, unless it fails at
the first signer already; without such failures the shares of all signers come together.
-/

namespace BftKit.Threshold

open Foundation

variable {scheme : ThresholdScheme}

/-- Taking shares adds none. -/
theorem takeShares_none {shares : Std.ExtTreeMap Nat scheme.GivreSigShare}
    {signers : List (Nat × scheme.GivrePublicCommitments)} {index : Nat}
    (hnone : shares[index]? = none) : (takeShares shares signers).1[index]? = none := by
  induction signers generalizing shares with
  | nil => exact hnone
  | cons signer rest ih =>
      unfold takeShares
      split
      next => exact hnone
      next =>
        apply ih
        rw [Std.ExtTreeMap.getElem?_erase]
        split
        · rfl
        · exact hnone

namespace PartialSigs

/-- The share stored under an index. -/
def givreShare? : PartialSigs scheme → Nat → Option scheme.GivreSigShare
  | .givre shares, index => shares[index]?
  | .vec _, _ | .thresholdCrypto _, _ => none

end PartialSigs

/-- The shares that are stored for listed signers are all still stored afterwards. -/
def KeepsShares (shares : Std.ExtTreeMap Nat scheme.GivreSigShare)
    (signers : List (Nat × scheme.GivrePublicCommitments)) (next : PartialSigs scheme) : Prop :=
  ∀ signer ∈ signers, ∀ share, shares[signer.1]? = some share →
    next.givreShare? signer.1 = some share

/-- What adding a share leaves alone if it fails. It replaces no other share of a listed
signer, and no stored share is taken: there is none of the first listed signer, and none of the
second one if the share that is added is the first one's. -/
structure Spares (shares : Std.ExtTreeMap Nat scheme.GivreSigShare) (index : Nat)
    (share : scheme.GivreSigShare) (signers : List (Nat × scheme.GivrePublicCommitments)) :
    Prop where
  same : ∀ signer ∈ signers, signer.1 = index → ∀ old, shares[index]? = some old → old = share
  first : ∀ signer ∈ signers.head?, shares[signer.1]? = none
  second : ∀ signer ∈ signers.head?, signer.1 = index →
    ∀ other ∈ signers.tail.head?, other.1 = index ∨ shares[other.1]? = none

variable {context : GivreAggregateContext scheme}
  {shares : Std.ExtTreeMap Nat scheme.GivreSigShare} {index : Nat}

theorem getElem?_insert {share : scheme.GivreSigShare} (other : Nat) :
    (shares.insert index share)[other]? = if index = other then some share else shares[other]? := by
  rw [Std.ExtTreeMap.getElem?_insert]
  simp only [compare_eq_iff_eq]

theorem getElem?_erase (other : Nat) :
    (shares.erase index)[other]? = if index = other then none else shares[other]? := by
  rw [Std.ExtTreeMap.getElem?_erase]
  simp only [compare_eq_iff_eq]

/-- Nothing is taken if there is no share of the first signer. -/
theorem takeShares_head {signers : List (Nat × scheme.GivrePublicCommitments)}
    (hnone : ∀ signer ∈ signers.head?, shares[signer.1]? = none) :
    (takeShares shares signers).1 = shares := by
  cases signers with
  | nil => rfl
  | cons first rest => simp only [takeShares, hnone first rfl]

/-- A share that is taken is gone. -/
theorem takeShares_first {first : Nat × scheme.GivrePublicCommitments}
    {rest : List (Nat × scheme.GivrePublicCommitments)} :
    (takeShares shares (first :: rest)).1[first.1]? = none := by
  unfold takeShares
  split
  next hnone => exact hnone
  next => exact takeShares_none (by simp)

/-- A share that is left has been there. -/
theorem takeShares_some {signers : List (Nat × scheme.GivrePublicCommitments)}
    {share : scheme.GivreSigShare} (hafter : (takeShares shares signers).1[index]? = some share) :
    shares[index]? = some share := by
  induction signers generalizing shares with
  | nil => exact hafter
  | cons first rest ih =>
      unfold takeShares at hafter
      split at hafter
      next => exact hafter
      next =>
        have herased := ih hafter
        rw [getElem?_erase] at herased
        split at herased
        · cases herased
        · exact herased

/-- A share of the first signer is taken, and those of the others are then. -/
theorem takeShares_next {first : Nat × scheme.GivrePublicCommitments}
    {rest : List (Nat × scheme.GivrePublicCommitments)} (hsome : (shares[first.1]?).isSome) :
    (takeShares shares (first :: rest)).1 = (takeShares (shares.erase first.1) rest).1 := by
  rw [takeShares]
  split
  next hnone =>
    rw [hnone] at hsome
    cases hsome
  next => rfl

/-- A failing aggregation keeps the stored shares exactly if it spares them. -/
theorem takeShares_spares {share : scheme.GivreSigShare}
    {signers : List (Nat × scheme.GivrePublicCommitments)} :
    KeepsShares shares signers (.givre (takeShares (shares.insert index share) signers).1) ↔
      Spares shares index share signers := by
  constructor
  · intro hkeeps
    constructor
    · intro signer hsigner heq old hold
      have hafter := hkeeps signer hsigner old (heq ▸ hold)
      change (takeShares (shares.insert index share) signers).1[signer.1]? = some old at hafter
      have hbefore := takeShares_some hafter
      rw [getElem?_insert, if_pos heq.symm] at hbefore
      exact (Option.some.inj hbefore).symm
    · -- a stored share of the first signer would be taken
      intro signer hsigner
      cases hshare : shares[signer.1]? with
      | none => rfl
      | some old =>
          obtain ⟨rest, rfl⟩ := List.head?_eq_some_iff.mp hsigner
          have hafter := hkeeps signer List.mem_cons_self old hshare
          change (takeShares (shares.insert index share) (signer :: rest)).1[signer.1]? = _ at hafter
          rw [takeShares_first] at hafter
          cases hafter
    · -- after the share that is added, a stored one of the second signer would be
      intro signer hsigner heq other hother
      obtain ⟨rest, rfl⟩ := List.head?_eq_some_iff.mp hsigner
      obtain ⟨more, rfl⟩ := List.head?_eq_some_iff.mp hother
      by_cases hother : other.1 = index
      · exact .inl hother
      · refine .inr ?_
        cases hshare : shares[other.1]? with
        | none => rfl
        | some old =>
            have hafter := hkeeps other (List.mem_cons_of_mem _ List.mem_cons_self) old hshare
            change (takeShares (shares.insert index share) (signer :: other :: more)).1[other.1]? =
              _ at hafter
            rw [takeShares_next (by rw [getElem?_insert, if_pos heq.symm]; rfl),
              takeShares_first] at hafter
            cases hafter
  · rintro ⟨hsame, hfirst, hsecond⟩ signer hsigner old hold
    change (takeShares (shares.insert index share) signers).1[signer.1]? = some old
    by_cases hadded : ∃ first ∈ signers.head?, first.1 = index
    · -- the share that is added is taken again, and no other one is there to be taken
      obtain ⟨first, hhead, rfl⟩ := hadded
      obtain ⟨rest, rfl⟩ := List.head?_eq_some_iff.mp hhead
      have hne : signer.1 ≠ first.1 := by
        intro heq
        rw [heq, hfirst first rfl] at hold
        cases hold
      rw [takeShares_next (by rw [getElem?_insert, if_pos rfl]; rfl), takeShares_head, getElem?_erase,
        if_neg hne.symm, getElem?_insert, if_neg hne.symm, hold]
      intro other hother
      rw [getElem?_erase]
      split
      next => rfl
      next hdiff =>
        rw [getElem?_insert, if_neg hdiff]
        exact (hsecond first rfl rfl other hother).resolve_left (Ne.symm hdiff)
    · rw [takeShares_head, getElem?_insert]
      · split
        next heq => rw [hsame signer hsigner heq.symm old (heq ▸ hold)]
        next => exact hold
      · intro first hhead
        rw [getElem?_insert, if_neg fun heq => hadded ⟨first, hhead, heq.symm⟩]
        exact hfirst first hhead

/-- What a failed aggregation leaves. -/
theorem addPartial_error {share : scheme.GivreSigShare} {next : PartialSigs scheme}
    {err : AggregateError}
    (hadd : (PartialSigs.givre shares).addPartial index (.givre share) (.givre context) =
      (next, .error err)) :
    next = .givre (takeShares (shares.insert index share) context.signers).1 := by
  unfold PartialSigs.addPartial at hadd
  dsimp only at hadd
  split at hadd
  · cases hadd
  · split at hadd
    next htaken =>
      rw [htaken]
      exact (Prod.mk.inj hadd).1.symm
    next htaken =>
      rw [htaken]
      split at hadd
      · exact (Prod.mk.inj hadd).1.symm
      · cases hadd

/-- What a failing addition keeps, as far as can be told before it. -/
theorem addPartial_keepsShares {partialSig : PartialSig scheme} {next : PartialSigs scheme}
    {err : AggregateError}
    (hadd : (PartialSigs.givre shares).addPartial index partialSig (.givre context) =
      (next, .error err)) :
    KeepsShares shares context.signers next ↔
      ∀ share, partialSig = .givre share → Spares shares index share context.signers := by
  have hunmatched : ∀ {partialSig : PartialSig scheme},
      (PartialSigs.givre shares).addPartial index partialSig (.givre context) =
        (.givre shares, .error .unmatched) →
      (PartialSigs.givre shares).addPartial index partialSig (.givre context) =
        (next, .error err) → next = .givre shares :=
    fun h h' => (Prod.mk.inj (h'.symm.trans h)).1
  cases partialSig with
  | vec sig =>
      obtain rfl := hunmatched rfl hadd
      exact iff_of_true (fun _ _ _ hshare => hshare) (fun _ heq => nomatch heq)
  | thresholdCrypto share =>
      obtain rfl := hunmatched rfl hadd
      exact iff_of_true (fun _ _ _ hshare => hshare) (fun _ heq => nomatch heq)
  | givre share =>
      obtain rfl := addPartial_error hadd
      simp only [PartialSig.givre.injEq, forall_eq']
      exact takeShares_spares

/-! ## Runs of additions -/

/-- The listed signers' valid shares can be aggregated, and no others. -/
def AggregatesValid (context : GivreAggregateContext scheme)
    (valid : Nat → scheme.GivreSigShare → Prop) : Prop :=
  ∀ taken, taken.map (fun entry => (entry.1, entry.2.1)) = context.signers →
    ((scheme.aggregate context.keyShare taken context.digest).isSome ↔
      ∀ entry ∈ taken, valid entry.1 entry.2.2)

def failure? : Except AggregateError (Option (Sig scheme)) → Option AggregateError
  | .error err => some err
  | .ok _ => none

theorem failure?_eq_some {result : Except AggregateError (Option (Sig scheme))}
    {err : AggregateError} (hfailure : failure? result = some err) : result = .error err := by
  cases result with
  | error err' => exact congrArg Except.error (Option.some.inj hfailure)
  | ok => cases hfailure

/-- A share that is added, with what the addition returned. -/
structure Addition (scheme : ThresholdScheme) where
  index : Nat
  partialSig : PartialSig scheme
  result : Except AggregateError (Option (Sig scheme))

namespace Addition

/-- A share of the right kind has been added under the index. -/
def Adds (addition : Addition scheme) (index : Nat) : Prop :=
  addition.index = index ∧ ∃ share, addition.partialSig = .givre share

/-- The addition returned an aggregate of valid shares of all listed signers. -/
def Aggregates (addition : Addition scheme) (context : GivreAggregateContext scheme)
    (valid : Nat → scheme.GivreSigShare → Prop) : Prop :=
  ∃ taken sig, addition.result = .ok (some (.givre sig)) ∧
    taken.map (fun entry => (entry.1, entry.2.1)) = context.signers ∧
    (∀ entry ∈ taken, valid entry.1 entry.2.2) ∧
    scheme.aggregate context.keyShare taken context.digest = some sig

end Addition

/-- An addition does not fail at the cost of stored shares: there are not yet enough of them,
or a valid one of every listed signer, or none of the first one. -/
def Harmless (context : GivreAggregateContext scheme) (valid : Nat → scheme.GivreSigShare → Prop)
    (shares : Std.ExtTreeMap Nat scheme.GivreSigShare) (index : Nat)
    (partialSig : PartialSig scheme) : Prop :=
  ∀ share, partialSig = .givre share →
    (shares.insert index share).size < scheme.minSigners context.keyShare ∨
    (∀ signer ∈ context.signers, ∃ share', (shares.insert index share)[signer.1]? = some share' ∧
      valid signer.1 share') ∨
    ∀ first ∈ context.signers.head?, first.1 ≠ index ∧ shares[first.1]? = none

/-- Shares of one message are added one by one, each as the guard allows. -/
abbrev AdditionRun (context : GivreAggregateContext scheme)
    (guard : Std.ExtTreeMap Nat scheme.GivreSigShare → Nat → PartialSig scheme → Prop) :
    List (Addition scheme) → PartialSigs scheme → Prop :=
  Run (· = .givre ∅) fun _ partialSigs addition next =>
    (∀ shares, partialSigs = .givre shares → guard shares addition.index addition.partialSig) ∧
      partialSigs.addPartial addition.index addition.partialSig (.givre context) =
        (next, addition.result)

variable {valid : Nat → scheme.GivreSigShare → Prop}

/-- A harmless addition returns the aggregate, or keeps all shares and lacks one. -/
theorem addPartial_harmless {share : scheme.GivreSigShare}
    (hvalid : AggregatesValid context valid) (hnodup : (context.signers.map Prod.fst).Nodup)
    (hne : context.signers ≠ [])
    (hlength : scheme.minSigners context.keyShare ≤ context.signers.length)
    (hharmless : Harmless context valid shares index (.givre share)) {next : PartialSigs scheme}
    {result : Except AggregateError (Option (Sig scheme))}
    (hadd : (PartialSigs.givre shares).addPartial index (.givre share) (.givre context) =
      (next, result)) :
    (∃ rest, next = .givre rest) ∧
      ((Addition.mk index (.givre share) result).Aggregates context valid ∨
        next = .givre (shares.insert index share) ∧
          ∃ signer ∈ context.signers, (shares.insert index share)[signer.1]? = none) := by
  have hfull : (∀ signer ∈ context.signers, ((shares.insert index share)[signer.1]?).isSome) →
      ¬ (shares.insert index share).size < scheme.minSigners context.keyShare := by
    intro hall
    have hsize := length_le_size hnodup (List.forall_mem_map.mpr hall)
    rw [List.length_map] at hsize
    omega
  have hmissing : (shares.insert index share).size < scheme.minSigners context.keyShare →
      ∃ signer ∈ context.signers, (shares.insert index share)[signer.1]? = none := by
    intro hlt
    by_contra hnone
    apply hfull _ hlt
    intro signer hsigner
    rw [← Option.ne_none_iff_isSome]
    exact fun heq => hnone ⟨signer, hsigner, heq⟩
  unfold PartialSigs.addPartial at hadd
  dsimp only at hadd
  split at hadd
  next hlt =>
    obtain ⟨rfl, rfl⟩ := Prod.mk.inj hadd
    exact ⟨⟨_, rfl⟩, .inr ⟨rfl, hmissing hlt⟩⟩
  next hge =>
    rcases hharmless share rfl with hlt | hall | hfirst
    · exact absurd hlt hge
    · -- all shares are taken, and aggregated
      obtain ⟨taken, htaken, hsigners, hshares⟩ := @takeShares_ok _ (shares.insert index share) _
        hnodup fun signer hsigner => by
          obtain ⟨share', hshare, -⟩ := hall signer hsigner
          rw [hshare, Option.isSome_some]
      have hvalid' : ∀ entry ∈ taken, valid entry.1 entry.2.2 := by
        intro entry hentry
        obtain ⟨share', hshare, hok⟩ := hall (entry.1, entry.2.1) (by
          rw [← hsigners]
          exact List.mem_map_of_mem hentry)
        obtain rfl := Option.some.inj ((hshares entry hentry).symm.trans hshare)
        exact hok
      obtain ⟨sig, hsig⟩ := Option.isSome_iff_exists.mp ((hvalid taken hsigners).mpr hvalid')
      obtain ⟨rest, hrest⟩ : ∃ rest,
          takeShares (shares.insert index share) context.signers = (rest, .ok taken) :=
        ⟨_, Prod.ext rfl htaken⟩
      rw [hrest] at hadd
      dsimp only at hadd
      rw [hsig] at hadd
      obtain ⟨rfl, rfl⟩ := Prod.mk.inj hadd
      exact ⟨⟨rest, rfl⟩, .inl ⟨taken, sig, rfl, hsigners, hvalid', hsig⟩⟩
    · -- the first listed signer is missing: nothing is taken
      obtain ⟨first, others, hsigners⟩ := List.exists_cons_of_ne_nil hne
      rw [hsigners, List.head?_cons] at hfirst
      have hnone : (shares.insert index share)[first.1]? = none := by
        rw [getElem?_insert, if_neg (hfirst first rfl).1.symm]
        exact (hfirst first rfl).2
      rw [hsigners, takeShares, hnone] at hadd
      obtain ⟨rfl, rfl⟩ := Prod.mk.inj hadd
      exact ⟨⟨_, rfl⟩, .inr ⟨rfl, first, hsigners ▸ List.mem_cons_self, hnone⟩⟩

/-- Until the aggregate is returned, all shares of listed signers are kept and some are
missing. -/
def Pending (context : GivreAggregateContext scheme) (valid : Nat → scheme.GivreSigShare → Prop)
    (history : List (Addition scheme)) (shares : Std.ExtTreeMap Nat scheme.GivreSigShare) : Prop :=
  (∃ addition ∈ history, addition.Aggregates context valid) ∨
    (∀ signer ∈ context.signers, (∃ addition ∈ history, addition.Adds signer.1) →
      (shares[signer.1]?).isSome) ∧
    ∃ signer ∈ context.signers, ∀ addition ∈ history, ¬ addition.Adds signer.1

/-- A signature of another kind changes nothing. -/
theorem Pending.skip {history : List (Addition scheme)} {addition : Addition scheme}
    (h : Pending context valid history shares) (hnot : ∀ index, ¬ addition.Adds index) :
    Pending context valid (history ++ [addition]) shares := by
  rcases h with ⟨earlier, hearlier, hreturned⟩ | ⟨hkept, signer, hsigner, hmissing⟩
  · exact .inl ⟨earlier, List.mem_append_left _ hearlier, hreturned⟩
  · refine .inr ⟨?_, signer, hsigner, List.forall_mem_append.mpr ⟨hmissing, ?_⟩⟩
    · rintro other hother ⟨earlier, hearlier, hadds⟩
      rcases List.mem_append.mp hearlier with hold | hnew
      · exact hkept other hother ⟨earlier, hold, hadds⟩
      · obtain rfl := List.mem_singleton.mp hnew
        exact absurd hadds (hnot _)
    · exact List.forall_mem_singleton.mpr (hnot _)

/-- A share that is added without harm is kept with the others. -/
theorem Pending.add {history : List (Addition scheme)} {share : scheme.GivreSigShare}
    {result : Except AggregateError (Option (Sig scheme))}
    (h : Pending context valid history shares)
    (hmissing : ∃ signer ∈ context.signers, (shares.insert index share)[signer.1]? = none) :
    Pending context valid (history ++ [⟨index, .givre share, result⟩])
      (shares.insert index share) := by
  rcases h with ⟨earlier, hearlier, hreturned⟩ | ⟨hkept, -⟩
  · exact .inl ⟨earlier, List.mem_append_left _ hearlier, hreturned⟩
  · have hkept' : ∀ signer ∈ context.signers,
        (∃ addition ∈ history ++ [⟨index, .givre share, result⟩], addition.Adds signer.1) →
        ((shares.insert index share)[signer.1]?).isSome := by
      rintro other hother ⟨earlier, hearlier, hadds⟩
      rw [Std.ExtTreeMap.getElem?_insert]
      split
      next => rfl
      next hcompare =>
        rcases List.mem_append.mp hearlier with hold | hnew
        · exact hkept other hother ⟨earlier, hold, hadds⟩
        · obtain rfl := List.mem_singleton.mp hnew
          exact absurd (compare_eq_iff_eq.mpr hadds.1) hcompare
    obtain ⟨signer, hsigner, hnone⟩ := hmissing
    refine .inr ⟨hkept', signer, hsigner, fun earlier hearlier hadds => ?_⟩
    have hsome := hkept' signer hsigner ⟨earlier, hearlier, hadds⟩
    rw [hnone] at hsome
    cases hsome

theorem AdditionRun.pending {history : List (Addition scheme)} {partialSigs : PartialSigs scheme}
    (hrun : AdditionRun context (Harmless context valid) history partialSigs)
    (hvalid : AggregatesValid context valid) (hnodup : (context.signers.map Prod.fst).Nodup)
    (hne : context.signers ≠ [])
    (hlength : scheme.minSigners context.keyShare ≤ context.signers.length) :
    ∃ shares, partialSigs = .givre shares ∧ Pending context valid history shares := by
  induction hrun with
  | start hstart =>
      obtain ⟨first, hfirst⟩ := List.exists_mem_of_ne_nil _ hne
      refine ⟨∅, hstart, .inr ⟨?_, first, hfirst, fun _ hmem => absurd hmem List.not_mem_nil⟩⟩
      rintro signer - ⟨addition, hmem, -⟩
      exact absurd hmem List.not_mem_nil
  | @step history partialSigs addition next _ hstep ih =>
      obtain ⟨shares, rfl, hpending⟩ := ih
      obtain ⟨hguard, hadd⟩ := hstep
      have hharmless := hguard shares rfl
      obtain ⟨index, partialSig, result⟩ := addition
      cases partialSig with
      | vec sig =>
          exact ⟨shares, (Prod.mk.inj hadd).1.symm, hpending.skip fun _ hadds => nomatch hadds.2⟩
      | thresholdCrypto share =>
          exact ⟨shares, (Prod.mk.inj hadd).1.symm, hpending.skip fun _ hadds => nomatch hadds.2⟩
      | givre share =>
          obtain ⟨⟨rest, hrest⟩, hreturned | ⟨hnext, hmissing⟩⟩ :=
            addPartial_harmless hvalid hnodup hne hlength hharmless hadd
          · exact ⟨rest, hrest,
              .inl ⟨_, List.mem_append_right _ (List.mem_singleton_self _), hreturned⟩⟩
          · exact ⟨_, hnext, hpending.add hmissing⟩

/-- A failed aggregation keeps the shares that were stored for the listed signers exactly if it
spares them, which can be told before it. As long as no addition fails otherwise, the aggregate
has been returned once a valid share of every listed signer has been added, in any order and
among any others. -/
theorem aggregation_keeps (context : GivreAggregateContext scheme)
    (valid : Nat → scheme.GivreSigShare → Prop) :
    (∀ shares index partialSig next err,
      (PartialSigs.givre shares).addPartial index partialSig (.givre context) =
        (next, .error err) →
      (KeepsShares shares context.signers next ↔
        ∀ share, partialSig = .givre share → Spares shares index share context.signers)) ∧
    (AggregatesValid context valid → (context.signers.map Prod.fst).Nodup →
      context.signers ≠ [] → scheme.minSigners context.keyShare ≤ context.signers.length →
      ∀ history partialSigs, AdditionRun context (Harmless context valid) history partialSigs →
      (∀ signer ∈ context.signers, ∃ addition ∈ history, ∃ share,
        addition.index = signer.1 ∧ addition.partialSig = .givre share ∧ valid signer.1 share) →
      ∃ addition ∈ history, addition.Aggregates context valid) := by
  refine ⟨fun shares index partialSig next err hadd => addPartial_keepsShares hadd, ?_⟩
  intro hvalid hnodup hne hlength history partialSigs hrun hall
  obtain ⟨-, -, hreturned | ⟨-, signer, hsigner, hmissing⟩⟩ :=
    AdditionRun.pending hrun hvalid hnodup hne hlength
  · exact hreturned
  · obtain ⟨addition, hmem, share, hindex, hshare, -⟩ := hall signer hsigner
    exact absurd ⟨hindex, share, hshare⟩ (hmissing addition hmem)

/-! ## A pair of signers -/

/-- Two signers, who are both needed. -/
def pairContext : GivreAggregateContext .transparent where
  keyShare := (0, 2)
  signers := [(1, 1, 0), (2, 2, 0)]
  digest := .zero

def pairShare (index : Nat) : ThresholdScheme.transparent.GivreSigShare := (index, .zero)

def PairValid (index : Nat) (share : ThresholdScheme.transparent.GivreSigShare) : Prop :=
  share = pairShare index

/-- The share of the first signer is stored. -/
def pairShares : Std.ExtTreeMap Nat ThresholdScheme.transparent.GivreSigShare :=
  (∅ : Std.ExtTreeMap Nat ThresholdScheme.transparent.GivreSigShare).insert 1 (pairShare 1)

theorem pair_aggregatesValid : AggregatesValid pairContext PairValid := by
  intro taken hsigners
  have hfirst : taken.map Prod.fst = [1, 2] := by
    have hfst := congrArg (List.map Prod.fst) hsigners
    rwa [List.map_map] at hfst
  have hlength : taken.length = 2 := by
    rw [← List.length_map Prod.fst, hfirst]
    rfl
  have henough : 2 ≤ taken.length ∧ (taken.map Prod.fst).Nodup := by
    rw [hfirst, hlength]
    decide
  simp only [pairContext, ThresholdScheme.transparent]
  rw [Option.isSome_ite]
  exact and_iff_right henough

theorem pair_signers {P : Nat × ThresholdScheme.transparent.GivrePublicCommitments → Prop}
    (hfirst : P (1, 1, 0)) (hsecond : P (2, 2, 0)) : ∀ signer ∈ pairContext.signers, P signer :=
  List.forall_mem_cons.mpr ⟨hfirst, List.forall_mem_singleton.mpr hsecond⟩

theorem pair_first : (PartialSigs.givre ∅).addPartial 1 (.givre (pairShare 1))
    (.givre pairContext) = (.givre pairShares, .ok none) := by
  unfold PartialSigs.addPartial
  exact if_pos (by decide +kernel)

/-- A valid share of each signer in turn gives the aggregate. -/
theorem aggregation_keeps_pair :
    ∃ history partialSigs, AdditionRun pairContext (Harmless pairContext PairValid) history
        partialSigs ∧ history.length = 2 ∧
      ∃ addition ∈ history, addition.Aggregates pairContext PairValid := by
  let second := (PartialSigs.givre pairShares).addPartial 2 (.givre (pairShare 2))
    (.givre pairContext)
  have hrun : AdditionRun pairContext (Harmless pairContext PairValid)
      ([] ++ [⟨1, .givre (pairShare 1), .ok none⟩] ++ [⟨2, .givre (pairShare 2), second.2⟩])
      second.1 := by
    refine .step (.step (.start rfl) ⟨?_, pair_first⟩) ⟨?_, rfl⟩
    · rintro _ heq share hshare
      obtain rfl := PartialSigs.givre.inj heq
      obtain rfl := PartialSig.givre.inj hshare
      exact .inl (by decide +kernel)
    · rintro _ heq share hshare
      obtain rfl := PartialSigs.givre.inj heq
      obtain rfl := PartialSig.givre.inj hshare
      refine .inr (.inl ?_)
      simp [pairContext, PairValid, pairShares, Std.ExtTreeMap.getElem?_insert]
  refine ⟨_, _, hrun, rfl, ?_⟩
  refine (aggregation_keeps pairContext PairValid).2 pair_aggregatesValid (by decide) (by decide)
    (by decide) _ _ hrun (pair_signers ?_ ?_)
  · exact ⟨_, List.mem_cons_self, _, rfl, rfl, rfl⟩
  · exact ⟨_, List.mem_cons_of_mem _ List.mem_cons_self, _, rfl, rfl, rfl⟩

/-- A share under another index comes in between: the aggregation that it sets off takes the
share of the first signer and fails, and so does the one that the second signer's share
sets off. -/
theorem shares_lost :
    ¬ (∀ (context : GivreAggregateContext .transparent) shares index partialSig next err,
        (PartialSigs.givre shares).addPartial index partialSig (.givre context) =
          (next, .error err) → KeepsShares shares context.signers next) ∧
    ¬ ∀ (context : GivreAggregateContext .transparent) valid history partialSigs,
        AggregatesValid context valid →
        AdditionRun context (fun _ _ _ => True) history partialSigs →
        (∀ signer ∈ context.signers, ∃ addition ∈ history, ∃ share,
          addition.index = signer.1 ∧ addition.partialSig = .givre share ∧ valid signer.1 share) →
        ∃ addition ∈ history, addition.Aggregates context valid := by
  let second := (PartialSigs.givre pairShares).addPartial 7 (.givre (pairShare 7))
    (.givre pairContext)
  let third := second.1.addPartial 2 (.givre (pairShare 2)) (.givre pairContext)
  have hsecond : second.2 = .error (.missingShare 2) := failure?_eq_some (by decide +kernel)
  have hthird : third.2 = .error (.missingShare 1) := failure?_eq_some (by decide +kernel)
  constructor
  · intro hall
    have hkept := hall pairContext pairShares 7 (.givre (pairShare 7)) second.1 _
      (Prod.ext rfl hsecond) (1, 1, 0) List.mem_cons_self (pairShare 1)
      Std.ExtTreeMap.getElem?_insert_self
    have hlost : (second.1.givreShare? 1).isNone = true := by decide +kernel
    rw [hkept] at hlost
    cases hlost
  · intro hall
    have hrun : AdditionRun pairContext (fun _ _ _ => True)
        ([] ++ [⟨1, .givre (pairShare 1), .ok none⟩] ++ [⟨7, .givre (pairShare 7), second.2⟩] ++
          [⟨2, .givre (pairShare 2), third.2⟩]) third.1 :=
      .step (.step (.step (.start rfl) ⟨fun _ _ => trivial, pair_first⟩)
        ⟨fun _ _ => trivial, rfl⟩) ⟨fun _ _ => trivial, rfl⟩
    obtain ⟨addition, hmem, taken, sig, hresult, -⟩ := hall _ PairValid _ _ pair_aggregatesValid
      hrun (pair_signers ⟨_, List.mem_cons_self, _, rfl, rfl, rfl⟩
        ⟨_, List.mem_append_right _ (List.mem_singleton_self _), _, rfl, rfl, rfl⟩)
    simp only [List.nil_append, List.cons_append, List.mem_cons, List.not_mem_nil, or_false] at hmem
    rcases hmem with rfl | rfl | rfl
    · cases hresult
    · rw [hsecond] at hresult
      cases hresult
    · rw [hthird] at hresult
      cases hresult

end BftKit.Threshold
