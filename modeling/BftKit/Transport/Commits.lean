import BftKit.Transport.Client

/-! # What makes a client commit

There are replies under more replica ids behind a commit than there are faulty replicas, and
so many replies are enough. The ids are those that the replies bear. Nothing ties them to the
connections that the replies have come over.
-/

namespace BftKit.Transport

open Foundation ToClient

namespace ClientTask

variable {Reply View : Type} [ToClient Reply] {task : ClientTask Reply View}
  {history : List (ClientHappening Reply)} {state : ClientState View}

/-- A reply under the id has been received. -/
def Replied (history : List (ClientHappening Reply)) (number : ClientSeq) (result : List UInt8)
    (id : Nat) : Prop :=
  ∃ happening ∈ history, happening.replyTo? number = some (id, result)

theorem Replied.mono {more : List (ClientHappening Reply)} {number : ClientSeq}
    {result : List UInt8} {id : Nat} (h : Replied history number result id)
    (hsub : history ⊆ more) : Replied more number result id := by
  obtain ⟨happening, hmem, hreply⟩ := h
  exact ⟨happening, hsub hmem, hreply⟩

theorem replied_of_mem_repliesTo {number : ClientSeq} {answer : Nat × List UInt8}
    (h : answer ∈ repliesTo number history) : Replied history number answer.2 answer.1 := by
  obtain ⟨happening, hmem, hreply⟩ := List.mem_filterMap.mp h
  exact ⟨happening, (List.dropWhile_sublist _).subset hmem, hreply⟩

/-- What is committed has been reported under more ids than there are faulty replicas. -/
theorem Run.replied (hrun : task.Run history state) {number : ClientSeq} {result : List UInt8}
    (hcommitted : (number, result) ∈ committed history) :
    ∃ ids : Finset Nat, task.numFaulty < ids.card ∧
      ∀ id ∈ ids, Replied history number result id := by
  obtain ⟨⟨select, actions⟩, hmem, hcommit⟩ := List.mem_filterMap.mp hcommitted
  obtain ⟨before, current, next, hbefore, hstep, hprefix⟩ := Foundation.Run.of_mem hrun hmem
  cases select with
  | invoke | transportJoinNext => cases hcommit
  | message reply =>
      cases reply with
      | none => cases hcommit
      | some reply =>
          simp only [Happening.committed?, Option.ite_none_right_eq_some, Option.some.injEq,
            Prod.mk.injEq] at hcommit
          obtain ⟨hmem', rfl, rfl⟩ := hcommit
          have hreceive : .commit ∈ (task.receive current reply).1 := by
            rw [show task.receive current reply = _ from hstep]
            exact hmem'
          obtain ⟨-, ⟨-, hagreed⟩, -⟩ := (Run.commit_mem_receive hbefore).mp hreceive
          refine ⟨_, hagreed, ?_⟩
          intro id hid
          have hanswer := mem_of_lookup_lastAnswers (Map.mem_holders.mp hid)
          rcases List.mem_append.mp hanswer with hold | hlast
          · exact (replied_of_mem_repliesTo hold).mono
              ((List.prefix_append _ _).trans hprefix).subset
          · rw [List.mem_singleton] at hlast
            rw [(Prod.mk.inj hlast).1]
            exact ⟨_, hmem, if_pos rfl⟩

/-! ## Enough replies -/

variable {number : ClientSeq} {scratch : SeqScratch}

theorem repliesTo_receive (h : task.Tracks history number scratch) {reply : Reply}
    (hseq : seq reply = number) (actions : List ClientAction) :
    repliesTo number (history ++ [⟨.message (some reply), actions⟩]) =
      repliesTo number history ++ [(replicaId reply, result reply)] := by
  rw [repliesTo_concat h.invoked]
  simp [Happening.replyTo?, hseq]

omit [ToClient Reply] in
theorem expects_message (reply : Reply) {found : List UInt8} (h : Expects history number found) :
    Expects (history ++ [⟨.message (some reply), []⟩]) number found := by
  intro happening hmem hinvokes
  rcases List.mem_append.mp hmem with hold | hlast
  · exact h happening hold hinvokes
  · obtain rfl := List.mem_singleton.mp hlast
    cases hinvokes

/-- A reply to a number that is tracked commits it or is counted. -/
theorem Tracks.receive_or (h : task.Tracks history number scratch)
    (hscratch : state.seqScratch[number]? = some scratch) (hlt : task.numFaulty + 1 < 2 ^ 16)
    {reply : Reply} (hseq : seq reply = number) (hexpects : Expects history number (result reply)) :
    (∃ next, task.receive state reply = ([.commit], .ok next)) ∨
      ∃ next, task.receive state reply = ([], .ok next) ∧
        next.seqScratch[number]? = some { scratch with
          results := scratch.results.insert (replicaId reply) (result reply) } := by
  subst hseq
  rcases h.receive_cases hscratch with
    ⟨-, -, heq⟩ | ⟨-, hnot, -⟩ | ⟨hfirst, heq⟩ | ⟨-, -, heq⟩
  · exact .inl ⟨_, heq⟩
  · exact absurd hexpects hnot
  · -- the sum of one and the bound fits
    rw [receive, hscratch] at heq
    dsimp only at heq
    rw [if_neg (not_le.mpr hlt), if_neg (mt (h.firstAgreed_iff hlt).mpr hfirst)] at heq
    cases heq
  · exact .inr ⟨_, heq, Std.ExtTreeMap.getElem?_insert_self⟩

/-- With replies under enough ids, whatever was replied before, a number is committed. -/
theorem Run.reaches_commit (hrun : task.Run history state) (hlt : task.numFaulty + 1 < 2 ^ 16)
    (hnumber : number ∈ state.seqScratch) {found : List UInt8}
    (hexpects : Expects history number found) {replies : List Reply}
    (hreplies : ∀ reply ∈ replies, seq reply = number ∧ result reply = found)
    (henough : task.numFaulty < (replies.map replicaId).toFinset.card) :
    ∃ more final, task.Run (history ++ more) final ∧
      more.map Happening.select <+: replies.map (fun reply => .message (some reply)) ∧
      (number, found) ∈ committed (history ++ more) := by
  have hheld : task.numFaulty <
      ((lastAnswers (repliesTo number history)).holders found ∪
        (replies.map replicaId).toFinset).card :=
    henough.trans_le (Finset.card_le_card Finset.subset_union_right)
  clear henough
  rw [Std.ExtTreeMap.mem_iff_isSome_getElem?] at hnumber
  obtain ⟨scratch, hscratch⟩ := Option.isSome_iff_exists.mp hnumber
  clear hnumber
  induction replies generalizing history state scratch with
  | nil =>
      have hle := (hrun.inv.tracks number scratch hscratch).undecided.scattered found
      rw [List.map_nil, List.toFinset_nil, Finset.union_empty] at hheld
      omega
  | cons reply rest ih =>
      obtain ⟨⟨hseq, rfl⟩, hrest⟩ := List.forall_mem_cons.mp hreplies
      have htracks := hrun.inv.tracks number scratch hscratch
      rcases htracks.receive_or hscratch hlt hseq hexpects with
        ⟨next, heq⟩ | ⟨next, heq, hscratch'⟩
      · refine ⟨[⟨.message (some reply), [.commit]⟩], next, Foundation.Run.step hrun heq,
          List.prefix_append _ _, ?_⟩
        rw [committed_concat]
        apply List.mem_append_right
        simp [Happening.committed?, hseq]
      · have hnext : task.Run (history ++ [⟨.message (some reply), []⟩]) next :=
          Foundation.Run.step hrun heq
        have hheld' : task.numFaulty <
            ((lastAnswers (repliesTo number (history ++ [⟨.message (some reply), []⟩]))).holders
              (result reply) ∪ (rest.map replicaId).toFinset).card := by
          rw [repliesTo_receive htracks hseq, lastAnswers_concat, Map.holders_insert_self,
            Finset.insert_union, ← Finset.union_insert]
          rwa [List.map_cons, List.toFinset_cons] at hheld
        obtain ⟨more, final, hfinal, hprefix, hcommitted⟩ :=
          ih hnext (expects_message reply hexpects) hrest hheld' _ hscratch'
        rw [List.append_assoc] at hfinal hcommitted
        exact ⟨_, final, hfinal, (List.prefix_cons_inj _).mpr hprefix, hcommitted⟩

/-- What it takes to make a client commit. -/
structure CommitsOnReplies (task : ClientTask Reply View) : Prop where
  replied : ∀ history state, task.Run history state → ∀ number result,
    (number, result) ∈ committed history → ∃ ids : Finset Nat, task.numFaulty < ids.card ∧
      ∀ id ∈ ids, Replied history number result id
  enough : task.numFaulty + 1 < 2 ^ 16 → ∀ history state, task.Run history state →
    ∀ number ∈ state.seqScratch, ∀ found, Expects history number found → ∀ replies : List Reply,
      (∀ reply ∈ replies, seq reply = number ∧ result reply = found) →
      task.numFaulty < (replies.map replicaId).toFinset.card →
      ∃ more final, task.Run (history ++ more) final ∧
        more.map Happening.select <+: replies.map (fun reply => .message (some reply)) ∧
        (number, found) ∈ committed (history ++ more)

theorem commits_on_replies (task : ClientTask Reply View) : task.CommitsOnReplies where
  replied _ _ hrun _ _ hcommitted := hrun.replied hcommitted
  enough hlt _ _ hrun _ hnumber _ hexpects _ hreplies henough :=
    hrun.reaches_commit hlt hnumber hexpects hreplies henough

end ClientTask

/-- The client tasks commit on replies, and on nothing else. Other replies may have come before,
in the name of the same replicas as well. -/
theorem client_tasks_commit_on_replies :
    (∀ id spec config replicaEgresses,
      (Pbft.clientTask id spec config replicaEgresses).CommitsOnReplies) ∧
    ∀ id spec config replicaEgresses,
      (Hotstuff.clientTask id spec config replicaEgresses).CommitsOnReplies :=
  ⟨fun _ _ _ _ => ClientTask.commits_on_replies _, fun _ _ _ _ => ClientTask.commits_on_replies _⟩

/-- Among four replicas a result is committed by two replies with it, though one of the ids has
replied something else before, and though a third one never says the same. -/
theorem client_tasks_commit_on_replies_four :
    ∃ history state more final, (Pbft.clientTask 0 { numFaulty := 1, numReplica := 4 } .closeLoop
        [0, 1, 2, 3]).Run history state ∧
      ClientTask.repliesTo 1 history = [(1, [5]), (3, [6])] ∧
      (Pbft.clientTask 0 { numFaulty := 1, numReplica := 4 } .closeLoop
        [0, 1, 2, 3]).Run (history ++ more) final ∧
      (1, [7]) ∈ ClientTask.committed (history ++ more) ∧
      ∃ ids : Finset Nat, 1 < ids.card ∧
        ∀ id ∈ ids, ClientTask.Replied (history ++ more) 1 [7] id := by
  let task := Pbft.clientTask 0 { numFaulty := 1, numReplica := 4 } .closeLoop [0, 1, 2, 3]
  let selects : List (ClientSelect Pbft.Reply) := [.invoke (some ([], none)),
    .message (some ⟨1, 0, [5], 1⟩), .message (some ⟨1, 0, [6], 3⟩)]
  have hreplay : ∃ run ∈ replay task.step task.new selects,
      ClientTask.repliesTo 1 run.1 = [(1, [5]), (3, [6])] ∧ 1 ∈ run.2.seqScratch ∧
      run.2.seqScratch[(1 : ClientSeq)]?.map SeqScratch.expectedResult = some none := by
    decide +kernel
  obtain ⟨⟨history, state⟩, hreplay, hreplies, htracked, hscratch⟩ := hreplay
  obtain ⟨scratch, hscratch, hnone⟩ := Option.map_eq_some_iff.mp hscratch
  have hrun : task.Run history state := replay_run (.start rfl) hreplay
  have hexpects : ClientTask.Expects history 1 [7] := by
    intro happening hmem hinvokes op expected hselect
    obtain ⟨_, hinvoke⟩ := (hrun.inv.tracks 1 scratch hscratch).expected happening hmem hinvokes
    rw [hselect, hnone] at hinvoke
    cases hinvoke
  obtain ⟨hreplied, henough⟩ :=
    client_tasks_commit_on_replies.1 0 { numFaulty := 1, numReplica := 4 } .closeLoop [0, 1, 2, 3]
  obtain ⟨more, final, hfinal, -, hcommitted⟩ := henough (by decide) history state hrun 1 htracked
    [7] hexpects [⟨1, 0, [7], 0⟩, ⟨1, 0, [7], 1⟩] (by decide) (by decide)
  exact ⟨history, state, more, final, hrun, hreplies, hfinal, hcommitted,
    hreplied _ final hfinal 1 [7] hcommitted⟩

end BftKit.Transport
