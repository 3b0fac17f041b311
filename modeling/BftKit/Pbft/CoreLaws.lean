import Mathlib.Data.List.Perm.Subperm
import BftKit.Pbft.Core

/-! # What the events of the core do

One law for each event of the main path, in every state whose pool is coherent.
Each says that the core does not panic and which state and actions it ends with;
nothing after this module unfolds the core.
-/

namespace BftKit.Pbft

open Foundation

variable {crypto : Crypto}

/-- The actions that finalize a run of blocks, from the one after a number. -/
def finalizeActions (crypto : Crypto) (done count : Nat) : ReplicaCoreActions crypto :=
  (List.range' (done + 1) count).map .finalize

/-- The actions that propose lists of commands under consecutive numbers. -/
def proposeActions (crypto : Crypto) (stored : Nat) (lists : List (List Command)) :
    ReplicaCoreActions crypto :=
  (lists.zipIdx (stored + 1)).map fun entry => .propose entry.2 entry.1

@[simp] theorem finalizeActions_zero (done : Nat) : finalizeActions crypto done 0 = [] := rfl

theorem finalizeActions_succ (done count : Nat) :
    finalizeActions crypto done (count + 1) =
      .finalize (done + 1) :: finalizeActions crypto (done + 1) count := by
  simp [finalizeActions, List.range'_succ]

@[simp] theorem proposeActions_nil (stored : Nat) : proposeActions crypto stored [] = [] := rfl

theorem proposeActions_cons (stored : Nat) (commands : List Command)
    (lists : List (List Command)) :
    proposeActions crypto stored (commands :: lists) =
      .propose (stored + 1) commands :: proposeActions crypto (stored + 1) lists := by
  simp [proposeActions]

namespace ReplicaCore

variable {core core' : ReplicaCore crypto} {log : List Command}
  {actions : ReplicaCoreActions crypto}

theorem isPrimary_congr {other : ReplicaCore crypto} (hconfig : other.config = core.config)
    (hview : other.viewNum = core.viewNum) : other.isPrimary = core.isPrimary := by
  simp [isPrimary, isPrimaryOf, hconfig, hview]

/-- Proposing closes batches under the next numbers and changes nothing else. -/
theorem proposeLoop_law (rounds : Nat) (hpool : core.pool.Issued log)
    (hvariant : core.pool.IsCloseLoop)
    (hwindow : core.isPrimary = true → core.finalizeNum ≤ core.proposeNum) :
    ∃ pool lists, core.proposeLoop rounds =
        .ok ({ core with pool, proposeNum := core.proposeNum + lists.length },
          proposeActions crypto core.proposeNum lists) ∧
      pool.Issued (log ++ lists.flatten) ∧ pool.IsCloseLoop ∧
      (core.isPrimary = false → lists = []) := by
  induction rounds generalizing core log with
  | zero => exact ⟨core.pool, [], rfl, by simpa using hpool, hvariant, fun _ => rfl⟩
  | succ rounds ih =>
      unfold proposeLoop
      by_cases hprimary : core.isPrimary = true
      · by_cases hroom : core.proposeNum - core.finalizeNum < core.config.maxNumInflight
        · obtain ⟨pool, batch, hclose⟩ :=
            hpool.closeBatch_ok hvariant core.config.maxBatchSize
          obtain ⟨hissued, hsame⟩ := hpool.closeBatch hclose
          have hcan : core.canPropose = .ok true := by
            simp [canPropose, hprimary, hwindow hprimary, hroom]
          cases batch with
          | none =>
              refine ⟨pool, [], ?_, by simpa using hissued, hsame.mpr hvariant, fun _ => rfl⟩
              simp [hcan, hclose]
          | some commands =>
              -- the rest of the loop runs from the state after this batch
              obtain ⟨final, lists, hloop, hfinal, hclosed, -⟩ :=
                @ih { core with pool, proposeNum := core.proposeNum + 1 } _ hissued
                  (hsame.mpr hvariant) (fun _ => (hwindow hprimary).trans (Nat.le_succ _))
              refine ⟨final, commands :: lists, ?_, by simpa using hfinal, hclosed, by
                simp [hprimary]⟩
              simp only [hcan, hclose, ok_bind, if_true, hloop, proposeActions_cons,
                List.length_cons, Nat.add_assoc, Nat.add_comm 1]
        · refine ⟨core.pool, [], ?_, by simpa using hpool, hvariant, fun _ => rfl⟩
          simp [canPropose, hprimary, hwindow hprimary, hroom]
      · refine ⟨core.pool, [], ?_, by simpa using hpool, hvariant, fun _ => rfl⟩
        simp [canPropose, hprimary]

/-- Finalizing advances over prepared and committed blocks without a gap. -/
theorem finalizeLoop_law (rounds : Nat) (hpool : core.pool.Issued log)
    (hvariant : core.pool.IsCloseLoop) :
    ∃ pool count, core.finalizeLoop rounds =
        .ok ({ core with pool, finalizeNum := core.finalizeNum + count },
          finalizeActions crypto core.finalizeNum count) ∧
      pool.Issued log ∧ pool.IsCloseLoop ∧
      ∀ blockNum, core.finalizeNum < blockNum → blockNum ≤ core.finalizeNum + count →
        ∃ block, core.blocks[blockNum]? = some block ∧ block.prepareQuorum.isSome ∧
          block.commitQuorum.isSome := by
  induction rounds generalizing core with
  | zero => exact ⟨core.pool, 0, rfl, hpool, hvariant, by omega⟩
  | succ rounds ih =>
      unfold finalizeLoop
      cases hblock : core.blocks[core.finalizeNum + 1]? with
      | none => exact ⟨core.pool, 0, rfl, hpool, hvariant, by omega⟩
      | some block =>
          by_cases hready : (block.prepareQuorum.isSome && block.commitQuorum.isSome) = true
          · obtain ⟨pool, hcommit, hissued, hsame⟩ := hpool.commit_all block.commands
            obtain ⟨final, count, hloop, hfinal, hclosed, hblocks⟩ :=
              @ih { core with pool, finalizeNum := core.finalizeNum + 1 } hissued
                (hsame.mpr hvariant)
            refine ⟨final, count + 1, ?_, hfinal, hclosed, ?_⟩
            · simp only [hready, if_true, hcommit, ok_bind, hloop, finalizeActions_succ,
                Nat.add_assoc, Nat.add_comm 1]
            · intro blockNum hgt hle
              by_cases heq : blockNum = core.finalizeNum + 1
              · subst heq
                exact ⟨block, hblock, by simpa using hready⟩
              · exact hblocks blockNum (by simp only; omega) (by simp only; omega)
          · refine ⟨core.pool, 0, ?_, hpool, hvariant, by omega⟩
            simp [hready]

/-! ## Nothing is left to finalize -/

/-- The next block number to finalize is not ready for it. -/
def Settled (core : ReplicaCore crypto) : Prop :=
  ∀ block, core.blocks[core.finalizeNum + 1]? = some block →
    ¬(block.prepareQuorum.isSome ∧ block.commitQuorum.isSome)

/-- A map has room for as many keys as its size says. -/
theorem length_le_size {blocks : Blocks crypto} {keys : List Nat} (hnodup : keys.Nodup)
    (hkeys : ∀ key ∈ keys, key ∈ blocks) : keys.length ≤ blocks.size := by
  rw [← Std.ExtTreeMap.length_keys]
  exact (hnodup.subperm fun key hmem => Std.ExtTreeMap.mem_keys.mpr (hkeys key hmem)).length_le

theorem finalizeLoop_settled {rounds : Nat}
    (hloop : core.finalizeLoop rounds = .ok (core', actions)) :
    core'.blocks = core.blocks ∧ (core'.Settled ∨ core'.finalizeNum = core.finalizeNum + rounds ∧
      ∀ key ∈ List.range' (core.finalizeNum + 1) rounds, key ∈ core.blocks) := by
  induction rounds generalizing core actions with
  | zero =>
      obtain ⟨rfl, -⟩ := Prod.mk.inj (Except.ok.inj hloop)
      exact ⟨rfl, .inr ⟨rfl, by simp⟩⟩
  | succ rounds ih =>
      unfold finalizeLoop at hloop
      cases hblock : core.blocks[core.finalizeNum + 1]? with
      | none =>
          rw [hblock] at hloop
          obtain ⟨rfl, -⟩ := Prod.mk.inj (Except.ok.inj hloop)
          exact ⟨rfl, .inl fun block h => by simp [hblock] at h⟩
      | some block =>
          simp only [hblock] at hloop
          split at hloop
          next hready =>
            simp only [bind_eq_ok] at hloop
            obtain ⟨pool, -, ⟨core'', actions'⟩, hrest, heq⟩ := hloop
            obtain ⟨rfl, -⟩ := Prod.mk.inj (Except.ok.inj heq)
            obtain ⟨hblocks, hsettled | ⟨hnum, hkeys⟩⟩ := ih hrest
            · exact ⟨hblocks, .inl hsettled⟩
            · refine ⟨hblocks, .inr ⟨by simp only at hnum ⊢; omega, ?_⟩⟩
              rw [List.range'_succ, List.forall_mem_cons]
              exact ⟨Std.ExtTreeMap.mem_iff_isSome_getElem?.mpr (by simp [hblock]), hkeys⟩
          next hready =>
            obtain ⟨rfl, -⟩ := Prod.mk.inj (Except.ok.inj hloop)
            refine ⟨rfl, .inl fun other h => ?_⟩
            obtain rfl := Option.some.inj (hblock.symm.trans h)
            simpa using hready

/-- The loop does not stop for want of rounds. -/
theorem finalizeLoop_size (hloop : core.finalizeLoop core.blocks.size = .ok (core', actions)) :
    core'.blocks = core.blocks ∧ core'.Settled := by
  obtain ⟨hblocks, hsettled | ⟨hnum, hkeys⟩⟩ := finalizeLoop_settled hloop
  · exact ⟨hblocks, hsettled⟩
  · refine ⟨hblocks, fun block hblock => ?_⟩
    exfalso
    rw [hnum] at hblock
    have hlast : core.finalizeNum + core.blocks.size + 1 ∈ core'.blocks :=
      Std.ExtTreeMap.mem_iff_isSome_getElem?.mpr (by simp [hblock])
    rw [hblocks] at hlast
    -- one more key than the map has room for
    have hle : (List.range' (core.finalizeNum + 1) (core.blocks.size + 1)).length ≤
        core.blocks.size := by
      refine length_le_size List.nodup_range' fun key hmem => ?_
      rw [List.range'_concat, List.mem_append, List.mem_singleton] at hmem
      rcases hmem with hmem | rfl
      · exact hkeys key hmem
      · rwa [show core.finalizeNum + 1 + 1 * core.blocks.size =
          core.finalizeNum + core.blocks.size + 1 by omega]
    rw [List.length_range'] at hle
    omega

theorem proposeLoop_frame {rounds : Nat} (hloop : core.proposeLoop rounds = .ok (core', actions)) :
    core'.blocks = core.blocks ∧ core'.finalizeNum = core.finalizeNum := by
  induction rounds generalizing core actions with
  | zero =>
      obtain ⟨rfl, -⟩ := Prod.mk.inj (Except.ok.inj hloop)
      exact ⟨rfl, rfl⟩
  | succ rounds ih =>
      simp only [proposeLoop, bind_eq_ok] at hloop
      obtain ⟨can, -, hloop⟩ := hloop
      split at hloop
      · simp only [bind_eq_ok] at hloop
        obtain ⟨⟨pool, batch⟩, -, hloop⟩ := hloop
        cases batch with
        | none =>
            obtain ⟨rfl, -⟩ := Prod.mk.inj (Except.ok.inj hloop)
            exact ⟨rfl, rfl⟩
        | some commands =>
            simp only [bind_eq_ok] at hloop
            obtain ⟨⟨core'', actions'⟩, hrest, heq⟩ := hloop
            obtain ⟨rfl, -⟩ := Prod.mk.inj (Except.ok.inj heq)
            have hframe := ih hrest
            exact hframe
      · obtain ⟨rfl, -⟩ := Prod.mk.inj (Except.ok.inj hloop)
        exact ⟨rfl, rfl⟩

/-- A commit quorum finalizes all there is to finalize. -/
theorem commitQuorum_settled {blockNum : Nat} {quorum : Quorum crypto.Sig}
    (hhandle : core.handle (.commitQuorum blockNum quorum) = .ok (core', actions)) :
    core'.Settled := by
  simp only [handle] at hhandle
  split at hhandle
  · cases hhandle
  next block hblock =>
    split at hhandle
    · cases hhandle
    · simp only [bind_eq_ok] at hhandle
      obtain ⟨⟨middle, finalized⟩, hloop, ⟨last, proposed⟩, hpropose, heq⟩ := hhandle
      obtain ⟨rfl, -⟩ := Prod.mk.inj (Except.ok.inj heq)
      obtain ⟨-, hsettled⟩ := @finalizeLoop_size _ { core with
        blocks := core.blocks.insert blockNum { block with commitQuorum := some quorum } } _ _ hloop
      obtain ⟨hblocks, hnum⟩ := proposeLoop_frame hpropose
      intro other hother
      rw [hblocks, hnum] at hother
      exact hsettled other hother

/-! ## The events -/

theorem handle_request (hpool : core.pool.Issued log) (hvariant : core.pool.IsCloseLoop)
    (hwindow : core.isPrimary = true → core.finalizeNum ≤ core.proposeNum)
    (command : Command) :
    ∃ pool lists, core.handle (.request command) =
        .ok ({ core with pool, proposeNum := core.proposeNum + lists.length },
          if core.isPrimary then proposeActions crypto core.proposeNum lists
          else [.forward (core.config.spec.primary core.viewNum) command]) ∧
      pool.Issued (log ++ lists.flatten) ∧ pool.IsCloseLoop ∧
      (core.isPrimary = false → lists = []) := by
  obtain ⟨pool, accepted, hpush, hissued, hsame⟩ := hpool.push command
  simp only [handle, hpush, ok_bind]
  have hprimaryEq : isPrimary { core with pool } = core.isPrimary := rfl
  by_cases hprimary : core.isPrimary = true
  · obtain ⟨final, lists, hloop, hfinal, hclosed, -⟩ :=
      @proposeLoop_law _ { core with pool } log (core.config.maxNumInflight + 1) hissued
        (hsame.mpr hvariant) hwindow
    refine ⟨final, lists, ?_, hfinal, hclosed, by simp [hprimary]⟩
    simp only [hprimaryEq, hprimary, if_true]
    exact hloop
  · refine ⟨pool, [], ?_, by simpa using hissued, hsame.mpr hvariant, fun _ => rfl⟩
    simp [hprimaryEq, hprimary]

theorem handle_proposal {blockNum : Nat} (hnone : core.blocks[blockNum]? = none)
    (block : Block crypto) :
    core.handle (.proposal blockNum block) =
      .ok ({ core with blocks := core.blocks.insert blockNum block },
        if core.isPrimary then [] else [.prepare blockNum block.digest]) := by
  have hnot : blockNum ∉ core.blocks := by
    rw [Std.ExtTreeMap.mem_iff_isSome_getElem?, hnone]
    simp
  simp only [handle, hnot, if_false]
  rfl

theorem handle_prepareQuorum {blockNum : Nat} {block : Block crypto}
    (hblock : core.blocks[blockNum]? = some block) (hnone : block.prepareQuorum = none)
    (quorum : Quorum crypto.Sig) :
    core.handle (.prepareQuorum blockNum quorum) =
      .ok ({ core with
        blocks := core.blocks.insert blockNum { block with prepareQuorum := some quorum } },
        [.commit blockNum]) := by
  simp [handle, hblock, hnone]

/-- With a block committed, what is ready to be finalized goes past what was proposed. -/
def Outruns (core : ReplicaCore crypto) (blockNum : Nat) : Prop :=
  core.isPrimary = true ∧
    ∀ other, core.finalizeNum < other → other ≤ core.proposeNum + 1 → other = blockNum ∨
      ∃ block, core.blocks[other]? = some block ∧ block.prepareQuorum.isSome ∧
        block.commitQuorum.isSome

theorem not_outruns {blockNum : Nat} (hbackup : core.isPrimary = false) :
    ¬core.Outruns blockNum := fun houtruns =>
  absurd (hbackup.symm.trans houtruns.1) (by decide)

/-- What is stored under the number itself does not matter. -/
theorem outruns_insert {blockNum : Nat} (block : Block crypto) :
    Outruns { core with blocks := core.blocks.insert blockNum block } blockNum ↔
      core.Outruns blockNum := by
  refine and_congr_right fun _ => forall_congr' fun other => ?_
  by_cases heq : blockNum = other
  · simp [heq]
  · simp [Std.ExtTreeMap.getElem?_insert, heq]

/-- A replica that has finalized more than it proposed cannot work out its window. -/
theorem proposeLoop_underflow (rounds : Nat) (hprimary : core.isPrimary = true)
    (hlt : core.proposeNum < core.finalizeNum) :
    core.proposeLoop (rounds + 1) = .error .underflow := by
  rw [proposeLoop, canPropose, if_pos hprimary, if_neg (not_le.mpr hlt), error_bind]

/-- A commit quorum is stored, the run of blocks it completes is finalized, and
the room this makes in the window is used, unless finalizing has gone past the window. -/
theorem handle_commitQuorum_or {blockNum : Nat} {block : Block crypto}
    (hblock : core.blocks[blockNum]? = some block) (hprepared : block.prepareQuorum.isSome)
    (hnone : block.commitQuorum = none) (quorum : Quorum crypto.Sig)
    (hpool : core.pool.Issued log) (hvariant : core.pool.IsCloseLoop) :
    (∃ pool count lists, core.handle (.commitQuorum blockNum quorum) =
        .ok ({ core with
            pool
            blocks := core.blocks.insert blockNum { block with commitQuorum := some quorum }
            finalizeNum := core.finalizeNum + count
            proposeNum := core.proposeNum + lists.length },
          finalizeActions crypto core.finalizeNum count ++
            proposeActions crypto core.proposeNum lists) ∧
      pool.Issued (log ++ lists.flatten) ∧ pool.IsCloseLoop ∧
      (core.isPrimary = false → lists = []) ∧
      (∀ other, core.finalizeNum < other → other ≤ core.finalizeNum + count →
        ∃ stored, (core.blocks.insert blockNum
            { block with commitQuorum := some quorum })[other]? = some stored ∧
          stored.prepareQuorum.isSome ∧ stored.commitQuorum.isSome) ∧
      (core.isPrimary = true → core.finalizeNum + count ≤ core.proposeNum) ∧
      ¬core.Outruns blockNum) ∨
    core.handle (.commitQuorum blockNum quorum) = .error .underflow ∧ core.Outruns blockNum := by
  let stored := core.blocks.insert blockNum { block with commitQuorum := some quorum }
  have hready : ∀ other, (other = blockNum ∨ ∃ block, core.blocks[other]? = some block ∧
        block.prepareQuorum.isSome ∧ block.commitQuorum.isSome) ↔
      ∃ block, stored[other]? = some block ∧ block.prepareQuorum.isSome ∧
        block.commitQuorum.isSome := by
    intro other
    by_cases heq : blockNum = other
    · subst heq
      simp [stored, hprepared]
    · simp [stored, Std.ExtTreeMap.getElem?_insert, heq, Ne.symm heq]
  obtain ⟨pool, count, hloop, hissued, hclosed, hblocks⟩ :=
    @finalizeLoop_law _ { core with blocks := stored } log stored.size hpool hvariant
  obtain ⟨-, hsettled⟩ := @finalizeLoop_size _ { core with blocks := stored } _ _ hloop
  let after := { core with pool, blocks := stored, finalizeNum := core.finalizeNum + count }
  have hhandle : core.handle (.commitQuorum blockNum quorum) =
      (after.proposeLoop (core.config.maxNumInflight + 1)).bind fun result =>
        .ok (result.1, finalizeActions crypto core.finalizeNum count ++ result.2) := by
    simp only [handle, hblock, hnone, Option.isSome_none, Bool.false_eq_true, if_false]
    rw [show core.blocks.insert blockNum { block with commitQuorum := some quorum } = stored
      from rfl, hloop, ok_bind]
    rfl
  by_cases hwindow : core.isPrimary = true → core.finalizeNum + count ≤ core.proposeNum
  · left
    obtain ⟨final, lists, hpropose, hfinal, hclosed', hlists⟩ :=
      @proposeLoop_law _ after log (core.config.maxNumInflight + 1) hissued hclosed hwindow
    rw [hpropose] at hhandle
    refine ⟨final, count, lists, hhandle, hfinal, hclosed', hlists, hblocks, hwindow, ?_⟩
    -- the block after the finalized run is not ready
    rintro ⟨hprimary, houtruns⟩
    have hle := hwindow hprimary
    obtain ⟨next, hnext, hquorums⟩ :=
      (hready _).mp (houtruns (core.finalizeNum + count + 1) (by omega) (by omega))
    exact hsettled next hnext hquorums
  · right
    obtain ⟨hprimary, hlt⟩ := Classical.not_imp.mp hwindow
    rw [@proposeLoop_underflow _ after _ hprimary (not_le.mp hlt)] at hhandle
    refine ⟨hhandle, hprimary, fun other hgt hle => (hready other).mpr ?_⟩
    exact hblocks other hgt (by simp only; omega)

/-- No block is ready that was not proposed, so the window is never passed. -/
theorem handle_commitQuorum {blockNum : Nat} {block : Block crypto}
    (hblock : core.blocks[blockNum]? = some block) (hprepared : block.prepareQuorum.isSome)
    (hnone : block.commitQuorum = none)
    (quorum : Quorum crypto.Sig) (hpool : core.pool.Issued log)
    (hvariant : core.pool.IsCloseLoop)
    (hwindow : ∀ count, (∀ other, core.finalizeNum < other →
        other ≤ core.finalizeNum + count → other ∈ core.blocks) →
      core.isPrimary = true → core.finalizeNum + count ≤ core.proposeNum) :
    ∃ pool count lists, core.handle (.commitQuorum blockNum quorum) =
        .ok ({ core with
            pool
            blocks := core.blocks.insert blockNum { block with commitQuorum := some quorum }
            finalizeNum := core.finalizeNum + count
            proposeNum := core.proposeNum + lists.length },
          finalizeActions crypto core.finalizeNum count ++
            proposeActions crypto core.proposeNum lists) ∧
      pool.Issued (log ++ lists.flatten) ∧ pool.IsCloseLoop ∧
      (core.isPrimary = false → lists = []) ∧
      ∀ other, core.finalizeNum < other → other ≤ core.finalizeNum + count →
        ∃ stored, (core.blocks.insert blockNum
            { block with commitQuorum := some quorum })[other]? = some stored ∧
          stored.prepareQuorum.isSome ∧ stored.commitQuorum.isSome := by
  rcases handle_commitQuorum_or hblock hprepared hnone quorum hpool hvariant with
    ⟨pool, count, lists, hhandle, hissued, hclosed, hlists, hrun, -⟩ | ⟨-, hprimary, hready⟩
  · exact ⟨pool, count, lists, hhandle, hissued, hclosed, hlists, hrun⟩
  · exfalso
    have hle := hwindow 0 (fun _ _ _ => by omega) hprimary
    have hpast := hwindow (core.proposeNum + 1 - core.finalizeNum) (fun other hgt hother => ?_)
      hprimary
    · omega
    · rw [Std.ExtTreeMap.mem_iff_isSome_getElem?]
      rcases hready other hgt (by omega) with rfl | ⟨stored, hstored, -⟩
      · simp [hblock]
      · simp [hstored]

end ReplicaCore

end BftKit.Pbft
