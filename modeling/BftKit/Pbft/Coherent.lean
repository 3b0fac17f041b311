import BftKit.Foundation.OrderedMap
import BftKit.Foundation.Run
import BftKit.Pbft.Effect
import BftKit.Pbft.Progress

/-! # Coherence of one replica

The invariant that ties the core, the vote scratches and the action queue
together. It speaks about the actions performed so far: the ones of each block
number come in the order prepare, commit, finalize, and the state says how far
each block number has come.
-/

namespace BftKit.Pbft

open Foundation

variable {crypto : Crypto}

open ReplicaCoreAction

namespace Replica

/-- How far a block number has come, read off the state. -/
def stage (done : Nat) (replica : Replica crypto) (blockNum : Nat) : List Phase :=
  match replica.core.blocks[blockNum]? with
  | none => []
  | some block =>
      if preparing blockNum replica.coreActions then []
      else if block.prepareQuorum.isNone || committing blockNum replica.coreActions then [.prepare]
      else if 1 ≤ blockNum ∧ blockNum ≤ done then [.prepare, .commit, .finalize]
      else [.prepare, .commit]

/-- The shapes of the queue, with the lists of commands that wait in it to be
proposed: a run of finalizations and proposals, or one action alone. -/
inductive Queue (done stored : Nat) (replica : Replica crypto) : List (List Command) → Prop
  | run {count lists}
      (hqueue : replica.coreActions =
        finalizeActions crypto done count ++ proposeActions crypto stored lists)
      (hfinalize : replica.core.finalizeNum = done + count)
      (hpropose : replica.core.proposeNum = stored + lists.length) :
      Queue done stored replica lists
  | solo {action} (hqueue : replica.coreActions = [action])
      (hsolo : action.Solo) (henabled : replica.Enabled action)
      (hfinalize : replica.core.finalizeNum = done)
      (hpropose : replica.core.proposeNum = stored) :
      Queue done stored replica []

/-- The action that a queue starts with, and what is behind it. -/
inductive Queue.Head (done stored : Nat) (replica : Replica crypto) :
    ReplicaCoreAction crypto → ReplicaCoreActions crypto → List (List Command) → Prop
  | finalize {count lists} (hfinalize : replica.core.finalizeNum = done + 1 + count)
      (hpropose : replica.core.proposeNum = stored + lists.length) :
      Head done stored replica (.finalize (done + 1))
        (finalizeActions crypto (done + 1) count ++ proposeActions crypto stored lists) lists
  | propose {commands lists} (hfinalize : replica.core.finalizeNum = done)
      (hpropose : replica.core.proposeNum = stored + 1 + lists.length) :
      Head done stored replica (.propose (stored + 1) commands)
        (proposeActions crypto (stored + 1) lists) (commands :: lists)
  | solo {action} (hsolo : action.Solo) (henabled : replica.Enabled action)
      (hfinalize : replica.core.finalizeNum = done)
      (hpropose : replica.core.proposeNum = stored) :
      Head done stored replica action [] []

/-- The commands stored under a block number. -/
def commandsAt (replica : Replica crypto) (blockNum : Nat) : Option (List Command) :=
  replica.core.blocks[blockNum]?.map (·.commands)

/-- Blocks carry the digests of their commands and gather quorums in order, and
every finalized block number is committed. -/
structure Stored (finalizeNum : Nat) (blocks : Blocks crypto) : Prop where
  digest : ∀ (blockNum : Nat) (block : Block crypto), blocks[blockNum]? = some block →
    block.digest = blockDigest crypto block.commands
  prepared : ∀ (blockNum : Nat) (block : Block crypto), blocks[blockNum]? = some block →
    block.commitQuorum.isSome → block.prepareQuorum.isSome
  committed : ∀ blockNum, 1 ≤ blockNum → blockNum ≤ finalizeNum →
    ∃ block : Block crypto, blocks[blockNum]? = some block ∧ block.commitQuorum.isSome

/-- Coherence of a replica with the actions it has performed. -/
structure Coherent (config : ReplicaCoreConfig) (performed : ReplicaCoreActions crypto)
    (replica : Replica crypto) : Prop
    extends Stored replica.core.finalizeNum replica.core.blocks where
  configured : replica.core.config = config
  view : replica.core.viewNum = 0
  id : config.id < config.spec.numReplica
  secretKey : replica.cryptoConfig.secretKey = crypto.replicaSecretKey config.id
  publicKeys : replica.cryptoConfig.publicKeys = (List.range config.spec.numReplica).map
    fun id => crypto.publicKey (crypto.replicaSecretKey id)
  finalized : finalizeNums performed = List.range' 1 (finalizeNums performed).length
  queue : ∃ lists, Queue (finalizeNums performed).length (proposals performed).length replica lists ∧
    replica.core.pool.Issued (proposals performed ++ lists).flatten ∧
    (replica.core.isPrimary = false → lists = [])
  closeLoop : replica.core.pool.IsCloseLoop
  phases : ∀ blockNum, phases blockNum performed =
    replica.stage (finalizeNums performed).length blockNum
  scratch : ∀ (blockNum : Nat) (block : Block crypto),
    replica.core.blocks[blockNum]? = some block → block.prepareQuorum.isSome →
      ¬(1 ≤ blockNum ∧ blockNum ≤ (finalizeNums performed).length) →
      blockNum ∈ replica.blockScratches
  collected : ∀ blockNum, 1 ≤ blockNum → blockNum ≤ (finalizeNums performed).length →
    blockNum ∉ replica.blockScratches
  primary : replica.core.isPrimary = true → ∀ blockNum, replica.commandsAt blockNum =
    if blockNum = 0 then none else (proposals performed)[blockNum - 1]?
  backup : replica.core.isPrimary = false → proposals performed = []
  ticked : replica.tickedScratchNum ≤ (proposals performed).length

variable {config : ReplicaCoreConfig} {performed : ReplicaCoreActions crypto}
  {replica : Replica crypto}

theorem Queue.le_numbers {done stored : Nat} {lists : List (List Command)}
    (hqueue : Queue done stored replica lists) :
    done ≤ replica.core.finalizeNum ∧ stored ≤ replica.core.proposeNum := by
  cases hqueue with
  | run _ hfinalize hpropose => omega
  | solo _ _ _ hfinalize hpropose => omega

theorem Queue.idle {done stored : Nat} {lists : List (List Command)}
    (hqueue : Queue done stored replica lists) (hidle : replica.coreActions = []) :
    lists = [] ∧ replica.core.finalizeNum = done ∧ replica.core.proposeNum = stored := by
  cases hqueue with
  | @run count lists hqueue hfinalize hpropose =>
      rw [hidle] at hqueue
      obtain ⟨hfinal, hprop⟩ := List.append_eq_nil_iff.mp hqueue.symm
      have hcount : count = 0 := by simpa [finalizeActions] using hfinal
      have hlists : lists = [] := by simpa [proposeActions] using hprop
      subst hcount hlists
      exact ⟨rfl, hfinalize, hpropose⟩
  | solo hqueue => simp [hidle] at hqueue

theorem Queue.head {done stored : Nat} {lists : List (List Command)}
    (hqueue : Queue done stored replica lists) {action : ReplicaCoreAction crypto}
    {rest : ReplicaCoreActions crypto} (hhead : replica.coreActions = action :: rest) :
    Head done stored replica action rest lists := by
  cases hqueue with
  | @run count _ hqueue hfinalize hpropose =>
      rw [hhead] at hqueue
      cases count with
      | succ count =>
          rw [finalizeActions_succ, List.cons_append] at hqueue
          obtain ⟨rfl, rfl⟩ := List.cons.inj hqueue
          exact .finalize (by omega) hpropose
      | zero =>
          cases lists with
          | nil => cases hqueue
          | cons commands lists =>
              rw [finalizeActions_zero, List.nil_append, proposeActions_cons] at hqueue
              obtain ⟨rfl, rfl⟩ := List.cons.inj hqueue
              rw [List.length_cons] at hpropose
              exact .propose hfinalize (by omega)
  | solo hqueue hsolo henabled hfinalize hpropose =>
      rw [hhead] at hqueue
      obtain ⟨rfl, rfl⟩ := List.cons.inj hqueue
      exact .solo hsolo henabled hfinalize hpropose

/-- An action that is queued alone is alone. -/
theorem Queue.solo_head {done stored : Nat} {lists : List (List Command)}
    (hqueue : Queue done stored replica lists) {action : ReplicaCoreAction crypto}
    {rest : ReplicaCoreActions crypto} (hhead : replica.coreActions = action :: rest)
    (hsolo : action.Solo) :
    rest = [] ∧ lists = [] ∧ replica.Enabled action ∧ replica.core.finalizeNum = done ∧
      replica.core.proposeNum = stored := by
  cases hqueue.head hhead with
  | finalize | propose => exact False.elim hsolo
  | solo _ henabled hfinalize hpropose => exact ⟨rfl, rfl, henabled, hfinalize, hpropose⟩

theorem getElem?_insert_self {blocks : Blocks crypto} (blockNum : Nat) (block : Block crypto) :
    (blocks.insert blockNum block)[blockNum]? = some block := by
  simp

theorem getElem?_insert_of_ne {blocks : Blocks crypto} {blockNum other : Nat}
    (hne : blockNum ≠ other) (block : Block crypto) :
    (blocks.insert blockNum block)[other]? = blocks[other]? := by
  simp [Std.ExtTreeMap.getElem?_insert, hne]

/-- A block that keeps the rules may be put in any place. -/
theorem Stored.insert {finalizeNum : Nat} {blocks : Blocks crypto}
    (h : Stored finalizeNum blocks) {blockNum : Nat} {block : Block crypto}
    (hdigest : block.digest = blockDigest crypto block.commands)
    (hprepared : block.commitQuorum.isSome → block.prepareQuorum.isSome)
    (hcommitted : 1 ≤ blockNum → blockNum ≤ finalizeNum → block.commitQuorum.isSome) :
    Stored finalizeNum (blocks.insert blockNum block) := by
  constructor
  · exact entries_insert h.digest hdigest
  · exact entries_insert h.prepared hprepared
  · intro other hge hle
    by_cases heq : blockNum = other
    · subst heq
      exact ⟨block, getElem?_insert_self _ _, hcommitted hge hle⟩
    · obtain ⟨stored, hstored, hsome⟩ := h.committed other hge hle
      exact ⟨stored, (getElem?_insert_of_ne heq _).trans hstored, hsome⟩

/-- The finalized run may grow over committed blocks. -/
theorem Stored.advance {finalizeNum count : Nat} {blocks : Blocks crypto}
    (h : Stored finalizeNum blocks)
    (hrun : ∀ other, finalizeNum < other → other ≤ finalizeNum + count →
      ∃ stored : Block crypto, blocks[other]? = some stored ∧ stored.prepareQuorum.isSome ∧
        stored.commitQuorum.isSome) :
    Stored (finalizeNum + count) blocks := by
  refine { h with committed := ?_ }
  intro other hge hle
  by_cases hold : other ≤ finalizeNum
  · exact h.committed other hge hold
  · obtain ⟨stored, hstored, -, hsome⟩ := hrun other (by omega) hle
    exact ⟨stored, hstored, hsome⟩

theorem Stored.late_of_uncommitted {finalizeNum : Nat} {blocks : Blocks crypto}
    (h : Stored finalizeNum blocks) {blockNum : Nat}
    (hnone : ∀ block : Block crypto, blocks[blockNum]? = some block → block.commitQuorum = none) :
    ¬(1 ≤ blockNum ∧ blockNum ≤ finalizeNum) := by
  rintro ⟨hge, hle⟩
  obtain ⟨stored, hstored, hsome⟩ := h.committed blockNum hge hle
  simp [hnone stored hstored] at hsome

theorem Stored.uncommitted_of_unprepared {finalizeNum : Nat} {blocks : Blocks crypto}
    (h : Stored finalizeNum blocks) {blockNum : Nat} {block : Block crypto}
    (hblock : blocks[blockNum]? = some block) (hnone : block.prepareQuorum = none) :
    block.commitQuorum = none := by
  by_contra hsome
  have := h.prepared blockNum block hblock (Option.isSome_iff_ne_none.mpr hsome)
  simp [hnone] at this

namespace Coherent

theorem isPrimary_eq (h : Coherent config performed replica) :
    replica.core.isPrimary = (config.spec.primary 0 == config.id) := by
  simp [ReplicaCore.isPrimary, ReplicaCore.isPrimaryOf, h.configured, h.view]

theorem bounds (h : Coherent config performed replica) (hprimary : replica.core.isPrimary = true)
    {blockNum : Nat} {block : Block crypto}
    (hblock : replica.core.blocks[blockNum]? = some block) :
    1 ≤ blockNum ∧ blockNum ≤ (proposals performed).length := by
  have hat := h.primary hprimary blockNum
  simp only [commandsAt, hblock, Option.map_some] at hat
  split at hat
  next => cases hat
  next hpos =>
    obtain ⟨hlt, -⟩ := List.getElem?_eq_some_iff.mp hat.symm
    omega

theorem stored (h : Coherent config performed replica) (hprimary : replica.core.isPrimary = true)
    {blockNum : Nat} (hge : 1 ≤ blockNum) (hle : blockNum ≤ (proposals performed).length) :
    ∃ block : Block crypto, replica.core.blocks[blockNum]? = some block ∧
      (proposals performed)[blockNum - 1]? = some block.commands := by
  have hat := h.primary hprimary blockNum
  rw [if_neg (by omega), List.getElem?_eq_getElem (by omega), commandsAt,
    Option.map_eq_some_iff] at hat
  obtain ⟨block, hblock, hcommands⟩ := hat
  exact ⟨block, hblock, by rw [hcommands, List.getElem?_eq_getElem]⟩

/-- The next number to propose is past every stored block. -/
theorem next_free (h : Coherent config performed replica)
    (hprimary : replica.core.isPrimary = true) :
    replica.core.blocks[(proposals performed).length + 1]? = none := by
  by_contra hsome
  obtain ⟨block, hblock⟩ := Option.ne_none_iff_exists'.mp hsome
  have hle := (h.bounds hprimary hblock).2
  omega

theorem mem_blocks {blockNum : Nat} :
    blockNum ∈ replica.core.blocks ↔
      ∃ block : Block crypto, replica.core.blocks[blockNum]? = some block := by
  rw [Std.ExtTreeMap.mem_iff_isSome_getElem?, Option.isSome_iff_exists]

/-- A coherent replica does not panic in its calls. -/
theorem ready (h : Coherent config performed replica) {lists : List (List Command)}
    (hissued : replica.core.pool.Issued (proposals performed ++ lists).flatten) :
    Ready (proposals performed ++ lists).flatten replica := by
  obtain ⟨others, hqueue, -, -⟩ := h.queue
  obtain ⟨-, hstored⟩ := hqueue.le_numbers
  exact {
    pool := hissued
    closeLoop := h.closeLoop
    keys := by rw [h.publicKeys, h.configured]; simp
    replicas := by rw [h.configured]; exact Nat.zero_lt_of_lt h.id
    window := by
      intro hprimary
      by_cases hzero : replica.core.finalizeNum = 0
      · omega
      · obtain ⟨block, hblock, -⟩ :=
          h.committed replica.core.finalizeNum (by omega) (le_refl _)
        exact (h.bounds hprimary hblock).2.trans hstored
    proposed := by
      intro hprimary blockNum hmem
      obtain ⟨block, hblock⟩ := mem_blocks.mp hmem
      exact (h.bounds hprimary hblock).2.trans hstored
    ticked := by
      intro hprimary blockNum hge hle
      obtain ⟨block, hblock, -⟩ := h.stored hprimary hge (hle.trans h.ticked)
      exact mem_blocks.mpr ⟨block, hblock⟩ }

/-- Whatever is at the head of the queue can be performed. -/
theorem enabled (h : Coherent config performed replica) {action : ReplicaCoreAction crypto}
    {rest : ReplicaCoreActions crypto} (hhead : replica.coreActions = action :: rest) :
    replica.Enabled action := by
  obtain ⟨lists, hqueue, -, hbackup⟩ := h.queue
  cases hqueue.head hhead with
  | solo _ henabled => exact henabled
  | finalize hfinalize =>
      obtain ⟨block, hblock, hcommitted⟩ :=
        h.committed ((finalizeNums performed).length + 1) (by omega) (by omega)
      exact ⟨h.scratch _ block hblock (h.prepared _ block hblock hcommitted) (by omega),
        block, hblock⟩
  | propose =>
      have hprimary : replica.core.isPrimary = true := by
        by_contra hnot
        cases hbackup (by simpa using hnot)
      exact ⟨h.next_free hprimary, hprimary⟩

/-! ## What the calls preserve -/

theorem of_new (hnew : Replica.new crypto config = .ok replica) :
    Coherent config [] replica := by
  simp only [Replica.new, bind_eq_ok] at hnew
  obtain ⟨cryptoConfig, hconfig, hreplica⟩ := hnew
  obtain ⟨hid, hsecret, hpublic⟩ := ReplicaConfig.new_eq_ok hconfig
  obtain rfl := Except.ok.inj hreplica
  exact {
    configured := rfl
    view := rfl
    id := hid
    secretKey := hsecret
    publicKeys := hpublic
    toStored := ⟨by simp [ReplicaCore.new], by simp [ReplicaCore.new],
      by simp only [ReplicaCore.new]; omega⟩
    finalized := rfl
    queue := ⟨[], @Queue.run _ _ _ _ 0 _ rfl rfl rfl, CommandPool.closeLoop_new_issued, fun _ => rfl⟩
    closeLoop := trivial
    phases := by simp [Pbft.phases, stage, ReplicaCore.new]
    scratch := by simp [ReplicaCore.new]
    collected := by simp [finalizeNums]
    primary := by simp [commandsAt, ReplicaCore.new, proposals]
    backup := fun _ => rfl
    ticked := le_refl _ }

/-- The numbers of an idle replica. -/
theorem idle (h : Coherent config performed replica) (hidle : replica.coreActions = []) :
    replica.core.finalizeNum = (finalizeNums performed).length ∧
      replica.core.proposeNum = (proposals performed).length ∧
      replica.core.pool.Issued (proposals performed).flatten := by
  obtain ⟨lists, hqueue, hissued, -⟩ := h.queue
  obtain ⟨rfl, hfinalize, hpropose⟩ := hqueue.idle hidle
  rw [List.append_nil] at hissued
  exact ⟨hfinalize, hpropose, hissued⟩

theorem request (h : Coherent config performed replica) (hidle : replica.coreActions = [])
    {command : Command} {pool : CommandPool} {lists : List (List Command)}
    (hissued : pool.Issued ((proposals performed).flatten ++ lists.flatten))
    (hclose : pool.IsCloseLoop) (hbackup : replica.core.isPrimary = false → lists = []) :
    Coherent config performed
      { replica with
        core := { replica.core with pool, proposeNum := replica.core.proposeNum + lists.length }
        coreActions := replica.coreActions ++
          if replica.core.isPrimary then proposeActions crypto replica.core.proposeNum lists
          else [.forward (replica.core.config.spec.primary replica.core.viewNum) command] } := by
  obtain ⟨hfinalize, hpropose, -⟩ := h.idle hidle
  refine { h with queue := ⟨lists, ?_, ?_, hbackup⟩, closeLoop := hclose, phases := ?_ }
  · by_cases hprimary : replica.core.isPrimary = true
    · refine @Queue.run _ _ _ _ 0 _ ?_ hfinalize ?_
      · simp [hidle, hprimary, hpropose]
      · simp [hpropose]
    · obtain rfl := hbackup (by simpa using hprimary)
      refine @Queue.solo _ _ _ _
        (.forward (replica.core.config.spec.primary replica.core.viewNum) command)
        ?_ trivial trivial hfinalize hpropose
      simp [hidle, hprimary]
  · rwa [List.flatten_append]
  · intro blockNum
    rw [h.phases blockNum]
    by_cases hprimary : replica.core.isPrimary = true <;> simp [stage, hidle, hprimary]

theorem accept (h : Coherent config performed replica) (hidle : replica.coreActions = [])
    (hbackup : replica.core.isPrimary = false) {blockNum : Nat} {block : Block crypto}
    (hnone : replica.core.blocks[blockNum]? = none)
    (hdigest : block.digest = blockDigest crypto block.commands)
    (hprepare : block.prepareQuorum = none) (hcommit : block.commitQuorum = none) :
    Coherent config performed
      { replica with
        core := { replica.core with blocks := replica.core.blocks.insert blockNum block }
        coreActions := [.prepare blockNum block.digest] } := by
  obtain ⟨hfinalize, hpropose, hissued⟩ := h.idle hidle
  refine { h with
    toStored := h.toStored.insert hdigest (by simp [hcommit]) ?_
    queue := ?_, phases := ?_, scratch := ?_, primary := ?_ }
  · intro hge hle
    obtain ⟨stored, hstored, -⟩ := h.committed blockNum hge hle
    simp [hnone] at hstored
  · refine ⟨[], .solo rfl trivial ⟨block, getElem?_insert_self _ _, rfl, hprepare⟩ hfinalize
      hpropose, ?_, fun _ => rfl⟩
    rwa [List.append_nil]
  · intro other
    rw [h.phases other]
    by_cases heq : blockNum = other
    · subst heq
      simp [stage, hnone]
    · simp [stage, hidle, heq, getElem?_insert_of_ne heq]
  · intro other stored hstored hsome hlate
    by_cases heq : blockNum = other
    · subst heq
      obtain rfl := Option.some.inj ((getElem?_insert_self _ _).symm.trans hstored)
      simp [hprepare] at hsome
    · exact h.scratch other stored ((getElem?_insert_of_ne heq _).symm.trans hstored) hsome hlate
  · intro hprimary
    exact absurd (hbackup.symm.trans hprimary) (by decide)

theorem tick (h : Coherent config performed replica) (hidle : replica.coreActions = []) :
    Coherent config performed
      { replica with tickedScratchNum := replica.core.proposeNum } := by
  obtain ⟨hfinalize, hpropose, hissued⟩ := h.idle hidle
  refine { h with
    queue := ⟨[], @Queue.run _ _ _ _ 0 [] ?_ hfinalize hpropose, ?_, fun _ => rfl⟩
    ticked := hpropose.le }
  · exact hidle
  · rwa [List.append_nil]

/-- A scratch may be put anywhere but under a finalized block number. -/
theorem put (h : Coherent config performed replica) {blockNum : Nat}
    (hlate : ¬(1 ≤ blockNum ∧ blockNum ≤ (finalizeNums performed).length))
    (scratch : BlockScratch crypto) :
    Coherent config performed
      { replica with blockScratches := replica.blockScratches.insert blockNum scratch } := by
  refine { h with queue := ?_, scratch := ?_, collected := ?_ }
  · obtain ⟨lists, hqueue, hrest⟩ := h.queue
    refine ⟨lists, ?_, hrest⟩
    cases hqueue with
    | run hqueue hfinalize hpropose => exact .run hqueue hfinalize hpropose
    | @solo action hqueue hsolo henabled hfinalize hpropose =>
        refine .solo hqueue hsolo ?_ hfinalize hpropose
        cases action with
        | commit other =>
            exact ⟨Std.ExtTreeMap.mem_insert.mpr (.inr henabled.1), henabled.2⟩
        | prepare _ _ => exact henabled
        | forward _ _ => trivial
        | propose _ _ | finalize _ | viewChange _ _ | newView _ _ _ | enterView =>
            exact False.elim hsolo
  · intro other stored hstored hsome hother
    exact Std.ExtTreeMap.mem_insert.mpr (.inr (h.scratch other stored hstored hsome hother))
  · intro other hge hle hmem
    rcases Std.ExtTreeMap.mem_insert.mp hmem with heq | hmem
    · have hnum : blockNum = other := by simpa using heq
      exact hlate (hnum ▸ ⟨hge, hle⟩)
    · exact h.collected other hge hle hmem

theorem uncommitted (h : Coherent config performed replica) {blockNum : Nat}
    {block : Block crypto} (hopen : replica.core.isCommitted blockNum = false)
    (hblock : replica.core.blocks[blockNum]? = some block) : block.commitQuorum = none := by
  cases hprepare : block.prepareQuorum with
  | none => exact h.uncommitted_of_unprepared hblock hprepare
  | some quorum =>
      exact (isCommitted_eq_false hopen hblock
        (isPrepared_of_isSome hblock (by simp [hprepare]))).2

theorem done_le (h : Coherent config performed replica) :
    (finalizeNums performed).length ≤ replica.core.finalizeNum := by
  obtain ⟨lists, hqueue, -⟩ := h.queue
  exact hqueue.le_numbers.1

/-- Storing a prepare quorum queues the Commit. -/
theorem prepare (h : Coherent config performed replica) (hidle : replica.coreActions = [])
    {blockNum : Nat} {block : Block crypto}
    (hblock : replica.core.blocks[blockNum]? = some block) (hnone : block.prepareQuorum = none)
    (hmem : blockNum ∈ replica.blockScratches) (quorum : Quorum crypto.Sig) :
    Coherent config performed
      { replica with
        core := { replica.core with
          blocks := replica.core.blocks.insert blockNum
            { block with prepareQuorum := some quorum } }
        coreActions := [.commit blockNum] } := by
  obtain ⟨hfinalize, hpropose, hissued⟩ := h.idle hidle
  have huncommitted := h.uncommitted_of_unprepared hblock hnone
  have hlate := h.late_of_uncommitted fun stored hstored =>
    Option.some.inj (hblock.symm.trans hstored) ▸ huncommitted
  refine { h with
    toStored := h.toStored.insert (h.digest blockNum block hblock) (fun _ => rfl)
      fun hge hle => absurd ⟨hge, hle⟩ hlate
    queue := ?_, phases := ?_, scratch := ?_, primary := ?_ }
  · refine ⟨[], .solo rfl trivial ⟨hmem, _, getElem?_insert_self _ _, rfl, huncommitted⟩ hfinalize
      hpropose, ?_, fun _ => rfl⟩
    rwa [List.append_nil]
  · intro other
    rw [h.phases other]
    by_cases heq : blockNum = other
    · subst heq
      simp [stage, hidle, hblock, hnone]
    · simp [stage, hidle, heq, getElem?_insert_of_ne heq]
  · intro other stored hstored hsome hother
    by_cases heq : blockNum = other
    · exact heq ▸ hmem
    · exact h.scratch other stored ((getElem?_insert_of_ne heq _).symm.trans hstored) hsome hother
  · intro hprimary other
    rw [← h.primary hprimary other]
    by_cases heq : blockNum = other
    · subst heq
      simp [commandsAt, hblock]
    · simp [commandsAt, getElem?_insert_of_ne heq]

/-- Storing a commit quorum queues the finalizations and proposals it allows. -/
theorem commit (h : Coherent config performed replica) (hidle : replica.coreActions = [])
    {blockNum : Nat} {block : Block crypto} {quorum : Quorum crypto.Sig} {pool : CommandPool}
    {count : Nat} {lists : List (List Command)}
    (hblock : replica.core.blocks[blockNum]? = some block)
    (hprepared : block.prepareQuorum.isSome) (hmem : blockNum ∈ replica.blockScratches)
    (hissued : pool.Issued ((proposals performed).flatten ++ lists.flatten))
    (hclose : pool.IsCloseLoop) (hbackup : replica.core.isPrimary = false → lists = [])
    (hrun : ∀ other, replica.core.finalizeNum < other →
      other ≤ replica.core.finalizeNum + count →
      ∃ stored, (replica.core.blocks.insert blockNum
          { block with commitQuorum := some quorum })[other]? = some stored ∧
        stored.prepareQuorum.isSome ∧ stored.commitQuorum.isSome) :
    Coherent config performed
      { replica with
        core := { replica.core with
          pool
          blocks := replica.core.blocks.insert blockNum { block with commitQuorum := some quorum }
          finalizeNum := replica.core.finalizeNum + count
          proposeNum := replica.core.proposeNum + lists.length }
        coreActions := finalizeActions crypto replica.core.finalizeNum count ++
          proposeActions crypto replica.core.proposeNum lists } := by
  obtain ⟨hfinalize, hpropose, -⟩ := h.idle hidle
  have hstored : Stored replica.core.finalizeNum
      (replica.core.blocks.insert blockNum { block with commitQuorum := some quorum }) :=
    h.toStored.insert (h.digest blockNum block hblock) (fun _ => hprepared) fun _ _ => rfl
  refine { h with
    toStored := hstored.advance hrun
    queue := ?_, closeLoop := hclose, phases := ?_, scratch := ?_, primary := ?_ }
  · refine ⟨lists, @Queue.run _ _ _ _ count lists ?_ ?_ ?_, ?_, hbackup⟩
    · rw [hfinalize, hpropose]
    · rw [hfinalize]
    · rw [hpropose]
    · rwa [List.flatten_append]
  · intro other
    rw [h.phases other]
    by_cases heq : blockNum = other
    · subst heq
      simp [stage, hidle, hblock]
    · simp [stage, hidle, getElem?_insert_of_ne heq]
  · intro other stored hstored hsome hother
    by_cases heq : blockNum = other
    · exact heq ▸ hmem
    · exact h.scratch other stored ((getElem?_insert_of_ne heq _).symm.trans hstored) hsome hother
  · intro hprimary other
    rw [← h.primary hprimary other]
    by_cases heq : blockNum = other
    · subst heq
      simp [commandsAt, hblock]
    · simp [commandsAt, getElem?_insert_of_ne heq]

/-! ## What the actions preserve -/

/-- Taking a lone action off the queue performs it for its block number. -/
theorem pop_solo (h : Coherent config performed replica) {action : ReplicaCoreAction crypto}
    {rest : ReplicaCoreActions crypto} (hhead : replica.coreActions = action :: rest)
    (hsolo : action.Solo) :
    Coherent config (performed ++ [action]) { replica with coreActions := rest } := by
  obtain ⟨lists, hqueue, hissued, hbackup⟩ := h.queue
  obtain ⟨rfl, rfl, henabled, hfinalize, hpropose⟩ := hqueue.solo_head hhead hsolo
  obtain ⟨hfinalized, hproposals⟩ := concat_solo performed hsolo
  refine { h with
    finalized := by rw [hfinalized]; exact h.finalized
    queue := ⟨[], @Queue.run _ _ _ _ 0 [] rfl ?_ ?_, ?_, fun _ => rfl⟩
    phases := ?_
    scratch := by rw [hfinalized]; exact h.scratch
    collected := by rw [hfinalized]; exact h.collected
    primary := by rw [hproposals]; exact h.primary
    backup := by rw [hproposals]; exact h.backup
    ticked := by rw [hproposals]; exact h.ticked }
  · rw [hfinalized]
    exact hfinalize
  · rw [hproposals]
    exact hpropose
  · rw [hproposals]
    exact hissued
  · intro other
    rw [phases_concat, hfinalized, h.phases other]
    cases action with
    | prepare blockNum digest =>
        obtain ⟨block, hblock, -, hnone⟩ := henabled
        by_cases heq : blockNum = other
        · subst heq
          simp [stage, hhead, hblock, hnone, phaseOf]
        · simp [stage, hhead, heq, phaseOf]
    | commit blockNum =>
        obtain ⟨-, block, hblock, hsome, hnone⟩ := henabled
        by_cases heq : blockNum = other
        · subst heq
          have hlate := h.late_of_uncommitted fun stored hstored =>
            Option.some.inj (hblock.symm.trans hstored) ▸ hnone
          rw [hfinalize] at hlate
          simp [stage, hhead, hblock, hlate, phaseOf, Option.isNone_eq_false_iff.mpr hsome]
        · simp [stage, hhead, heq, phaseOf]
    | forward replicaId command => simp [stage, hhead, phaseOf]
    | propose _ _ | finalize _ | viewChange _ _ | newView _ _ _ | enterView =>
        exact False.elim hsolo

/-- The queued finalization is the next one; performing it collects the scratch. -/
theorem finalize (h : Coherent config performed replica) {blockNum : Nat}
    {rest : ReplicaCoreActions crypto} (hhead : replica.coreActions = .finalize blockNum :: rest) :
    blockNum = (finalizeNums performed).length + 1 ∧
      Coherent config (performed ++ [.finalize blockNum])
        { replica with
          coreActions := rest
          blockScratches := replica.blockScratches.erase blockNum } := by
  obtain ⟨lists, hqueue, hissued, hbackup⟩ := h.queue
  cases hqueue.head hhead with
  | solo hsolo => exact False.elim hsolo
  | @finalize count _ hfinalize hpropose =>
      obtain ⟨block, hblock, hcommitted⟩ :=
        h.committed ((finalizeNums performed).length + 1) (by omega) (by omega)
      have hprepared := h.prepared _ block hblock hcommitted
      set blockNum := (finalizeNums performed).length + 1 with hblockNum
      have hnums : finalizeNums (performed ++ [.finalize blockNum]) =
          finalizeNums performed ++ [blockNum] := finalizeNums_concat _ _
      have hproposals : proposals (performed ++ [.finalize blockNum]) = proposals performed := by
        simp [proposals_concat, proposal?]
      refine ⟨rfl, { h with
        finalized := ?_
        queue := ⟨lists, @Queue.run _ _ _ _ count lists ?_ ?_ ?_, ?_, hbackup⟩
        phases := ?_
        scratch := ?_
        collected := ?_
        primary := by rw [hproposals]; exact h.primary
        backup := by rw [hproposals]; exact h.backup
        ticked := by rw [hproposals]; exact h.ticked }⟩
      · rw [hnums, List.length_append, List.length_singleton, List.range'_concat,
          ← h.finalized, hblockNum, Nat.one_mul, Nat.add_comm 1]
      · rw [hnums, hproposals, List.length_append, List.length_singleton]
      · rw [hnums, List.length_append, List.length_singleton, hfinalize]
      · rw [hproposals, hpropose]
      · rwa [hproposals]
      · intro other
        rw [phases_concat, hnums, List.length_append, List.length_singleton, h.phases other]
        have hnext : ¬(blockNum ≤ (finalizeNums performed).length) := by omega
        by_cases heq : blockNum = other
        · have hge : 1 ≤ blockNum := by omega
          subst heq
          simp [stage, hhead, hblock, Option.isNone_eq_false_iff.mpr hprepared,
            phaseOf, hnext, hge, ← hblockNum]
        · have hsame : (1 ≤ other ∧ other ≤ (finalizeNums performed).length + 1) ↔
              1 ≤ other ∧ other ≤ (finalizeNums performed).length := by omega
          simp [stage, hhead, phaseOf, heq, hsame]
      · intro other stored hstored hsome hlate
        rw [hnums, List.length_append, List.length_singleton] at hlate
        rw [Std.ExtTreeMap.mem_erase]
        refine ⟨?_, h.scratch other stored hstored hsome (by omega)⟩
        simp only [compare_eq_iff_eq, ne_eq]
        omega
      · intro other hge hle hmem
        rw [hnums, List.length_append, List.length_singleton] at hle
        obtain ⟨hne, hmem⟩ := Std.ExtTreeMap.mem_erase.mp hmem
        simp only [compare_eq_iff_eq, ne_eq] at hne
        exact h.collected other hge (by omega) hmem

/-- One more proposal is found under the next number only. -/
theorem getElem?_proposed {lists : List (List Command)} {commands : List Command} {other : Nat}
    (hne : lists.length + 1 ≠ other) :
    (if other = 0 then none else (lists ++ [commands])[other - 1]?) =
      if other = 0 then none else lists[other - 1]? := by
  split
  next => rfl
  next hpos =>
    by_cases hlt : other - 1 < lists.length
    · rw [List.getElem?_append_left hlt]
    · have hbeyond : (lists ++ [commands]).length ≤ other - 1 := by
        rw [List.length_append, List.length_singleton]
        omega
      rw [List.getElem?_eq_none hbeyond, List.getElem?_eq_none (not_lt.mp hlt)]

/-- The queued proposal takes the next number; performing it stores its block. -/
theorem propose (h : Coherent config performed replica) {blockNum : Nat}
    {commands : List Command} {rest : ReplicaCoreActions crypto} {block : Block crypto}
    (hhead : replica.coreActions = .propose blockNum commands :: rest)
    (hprimary : replica.core.isPrimary = true) (hcommands : block.commands = commands)
    (hdigest : block.digest = blockDigest crypto commands) (hprepare : block.prepareQuorum = none)
    (hcommit : block.commitQuorum = none) :
    blockNum = (proposals performed).length + 1 ∧
      Coherent config (performed ++ [.propose blockNum commands])
        { replica with
          core := { replica.core with blocks := replica.core.blocks.insert blockNum block }
          coreActions := rest } := by
  obtain ⟨lists, hqueue, hissued, hbackup⟩ := h.queue
  cases hqueue.head hhead with
  | solo hsolo => exact False.elim hsolo
  | @propose _ lists hfinalize hpropose =>
      have hnone := h.next_free hprimary
      set blockNum := (proposals performed).length + 1 with hblockNum
      have hnums : finalizeNums (performed ++ [.propose blockNum commands]) =
          finalizeNums performed := by simp [finalizeNums_concat, finalized?]
      have hproposals : proposals (performed ++ [.propose blockNum commands]) =
          proposals performed ++ [commands] := proposals_concat _ _
      refine ⟨rfl, { h with
        toStored := h.toStored.insert (hcommands ▸ hdigest) (by simp [hcommit]) ?_
        finalized := by rw [hnums]; exact h.finalized
        queue := ⟨lists, @Queue.run _ _ _ _ 0 lists ?_ ?_ ?_, ?_, ?_⟩
        phases := ?_
        scratch := ?_
        collected := by rw [hnums]; exact h.collected
        primary := ?_
        backup := ?_
        ticked := ?_ }⟩
      · intro hge hle
        obtain ⟨stored, hstored, -⟩ := h.committed blockNum hge hle
        simp [hnone] at hstored
      · rw [hproposals, List.length_append, List.length_singleton]
        rfl
      · rw [hnums, hfinalize, Nat.add_zero]
      · rw [hproposals, hpropose, List.length_append, List.length_singleton]
      · simpa [hproposals] using hissued
      · intro hnot
        exact absurd (hnot.symm.trans hprimary) (by decide)
      · intro other
        rw [phases_concat, hnums, h.phases other]
        by_cases heq : blockNum = other
        · subst heq
          simp [stage, hnone, hprepare, phaseOf]
        · simp [stage, hhead, heq, getElem?_insert_of_ne heq, phaseOf]
      · intro other stored hstored hsome hlate
        rw [hnums] at hlate
        by_cases heq : blockNum = other
        · subst heq
          obtain rfl := Option.some.inj ((getElem?_insert_self _ _).symm.trans hstored)
          simp [hprepare] at hsome
        · exact h.scratch other stored
            ((getElem?_insert_of_ne heq _).symm.trans hstored) hsome hlate
      · intro _ other
        rw [hproposals]
        by_cases heq : blockNum = other
        · subst heq
          simp [commandsAt, hcommands, hblockNum]
        · rw [getElem?_proposed heq, ← h.primary hprimary other]
          simp only [commandsAt, getElem?_insert_of_ne heq]
      · intro hnot
        exact absurd (hnot.symm.trans hprimary) (by decide)
      · rw [hproposals, List.length_append]
        exact h.ticked.trans (Nat.le_add_right _ _)

/-! ## Steps and runs -/

theorem prepareCheck (h : Coherent config performed replica) (hidle : replica.coreActions = [])
    {blockNum : Nat} {block : Block crypto} {scratch : BlockScratch crypto} {next : Replica crypto}
    (hblock : replica.core.blocks[blockNum]? = some block) (hnone : block.prepareQuorum = none)
    (hcheck : PrepareCheck replica blockNum block scratch next) :
    Coherent config performed next := by
  have hlate : ¬(1 ≤ blockNum ∧ blockNum ≤ (finalizeNums performed).length) := by
    have huncommitted := h.uncommitted_of_unprepared hblock hnone
    rw [← (h.idle hidle).1]
    exact h.late_of_uncommitted fun stored hstored =>
      Option.some.inj (hblock.symm.trans hstored) ▸ huncommitted
  cases hcheck with
  | waiting => exact h.put hlate scratch
  | prepared =>
      rw [hidle, List.nil_append]
      exact (h.put hlate _).prepare hidle hblock hnone (by simp) _

theorem commitCheck (h : Coherent config performed replica) (hidle : replica.coreActions = [])
    {blockNum : Nat} {block : Block crypto} {scratch : BlockScratch crypto} {next : Replica crypto}
    (hblock : replica.core.blocks[blockNum]? = some block) (hnone : block.commitQuorum = none)
    (hcheck : CommitCheck (proposals performed).flatten replica blockNum block scratch next) :
    Coherent config performed next := by
  have hlate : ¬(1 ≤ blockNum ∧ blockNum ≤ (finalizeNums performed).length) := by
    rw [← (h.idle hidle).1]
    exact h.late_of_uncommitted fun stored hstored =>
      Option.some.inj (hblock.symm.trans hstored) ▸ hnone
  cases hcheck with
  | waiting => exact h.put hlate scratch
  | committed hprepared _ hissued hclose hbackup hrun =>
      rw [hidle, List.nil_append]
      exact (h.put hlate _).commit hidle hblock hprepared (by simp) hissued hclose hbackup hrun

end Coherent

/-- A coherent replica steps by an effect. -/
theorem Coherent.effect (h : Coherent config performed replica) {event : Event crypto}
    {next : Replica crypto} (hstep : Step replica event next) :
    ∃ lists, Queue (finalizeNums performed).length (proposals performed).length replica lists ∧
      Effect (proposals performed ++ lists).flatten replica event next := by
  obtain ⟨lists, hqueue, hissued, -⟩ := h.queue
  exact ⟨lists, hqueue, hstep.effect (h.ready hissued) fun action rest => h.enabled⟩

/-- Steps keep a replica coherent, as long as a primary is not shown a PrePrepare
under its own key for a block it does not have. -/
theorem Coherent.step {history : List (Event crypto)}
    (h : Coherent config (performedIn history) replica) {event : Event crypto}
    {next : Replica crypto} (hstep : Step replica event next)
    (hown : ∀ prePrepare commands actions,
      event = .call (.receive (.prePrepare prePrepare commands)) actions →
      replica.core.isPrimary = true →
      replica.Admits prePrepare prePrepare.viewNum
        (replica.core.config.spec.primary prePrepare.viewNum) prePrepare.sig →
      replica.core.blocks[prePrepare.blockNum]? ≠ none) :
    Coherent config (performedIn (history ++ [event])) next := by
  obtain ⟨lists, hqueue, heffect⟩ := h.effect hstep
  cases hstep with
  | call hidle =>
      obtain ⟨rfl, -, -⟩ := hqueue.idle hidle
      rw [List.append_nil] at heffect
      rw [performedIn_call]
      cases heffect with
      | drop | resend => exact h
      | request _ hissued hclose hbackup => exact h.request hidle hissued hclose hbackup
      | accept hadmits hnone hdigest =>
          by_cases hprimary : replica.core.isPrimary = true
          · exact absurd hnone (hown _ _ _ rfl hprimary hadmits)
          · have hbackup : replica.core.isPrimary = false := by simpa using hprimary
            simp only [hidle, hbackup, Bool.false_eq_true, if_false, List.nil_append]
            exact h.accept hidle hbackup hnone rfl rfl rfl
      | @keepPrepare vote _ hopen =>
          refine h.put ?_ _
          rw [← (h.idle hidle).1]
          exact h.late_of_uncommitted fun block hblock =>
            h.uncommitted_of_unprepared hblock (isPrepared_eq_false hopen hblock)
      | countPrepare hopen _ hblock _ hcheck =>
          exact h.prepareCheck hidle hblock (isPrepared_eq_false hopen hblock) hcheck
      | @keepCommit vote _ hopen =>
          refine h.put ?_ _
          rw [← (h.idle hidle).1]
          exact h.late_of_uncommitted fun block hblock => h.uncommitted hopen hblock
      | countCommit hopen _ hblock _ hcheck =>
          exact h.commitCheck hidle hblock (h.uncommitted hopen hblock) hcheck
      | tick => exact h.tick hidle
  | perform hhead =>
      rw [performedIn_perform]
      cases heffect with
      | propose hqueue' hnone hprimary =>
          exact (h.propose hqueue' hprimary rfl rfl rfl rfl).2
      | prepare hqueue' hblock _ hnone hcheck =>
          obtain ⟨rfl, -⟩ := hqueue.solo_head hqueue' trivial
          exact (h.pop_solo hqueue' trivial).prepareCheck rfl hblock hnone hcheck
      | @commit blockNum _ _ _ hqueue' hblock hnone hcheck =>
          have hsolo : (ReplicaCoreAction.commit blockNum : ReplicaCoreAction crypto).Solo := trivial
          obtain ⟨rfl, rfl, -⟩ := hqueue.solo_head hqueue' hsolo
          rw [List.append_nil] at hcheck
          have hpop := h.pop_solo hqueue' trivial
          rw [← (concat_solo (performedIn history) hsolo).2] at hcheck
          exact hpop.commitCheck rfl hblock hnone hcheck
      | finalize hqueue' hblock => exact (h.finalize hqueue').2
      | forward hqueue' => exact h.pop_solo hqueue' trivial

end Replica

end BftKit.Pbft
