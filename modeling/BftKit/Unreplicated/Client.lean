import BftKit.Transport.Service

/-! # The client of the unreplicated protocol

It commits on the only reply there is. -/

namespace BftKit.Unreplicated

open Foundation Transport

/-- The numbers are the keys of the map. -/
theorem transCmp_compare : Std.TransCmp (compare : ClientSeq → ClientSeq → Ordering) :=
  inferInstance

attribute [local instance] transCmp_compare

/-- What is left of an invocation: the result that it has to have. -/
abbrev SeqScratches := Std.ExtTreeMap ClientSeq (Option (List UInt8))

structure ClientState where
  seq : ClientSeq
  seqScratch : SeqScratches

/-- Makes room for another invocation. -/
def makeRoom (config : ClientConfig) (seqScratch : SeqScratches) :
    Except ClientEnd SeqScratches :=
  match config with
  | .closeLoop => if seqScratch.isEmpty then .ok seqScratch else .error .inflight
  | .openLoop numMaxInflight =>
      if seqScratch.size = numMaxInflight then
        match seqScratch.minKey? with
        | some seq => .ok (seqScratch.erase seq)
        | none => .ok seqScratch
      else .ok seqScratch

structure ClientTask where
  id : ClientId
  config : ClientConfig
  /-- Those that there is a connection to. -/
  replicaEgresses : List Nat

namespace ClientTask

def new : ClientState := ⟨0, ∅⟩

variable (task : ClientTask)

def invoke (state : ClientState) (op : List UInt8) (result : Option (List UInt8)) :
    List ClientAction × Except ClientEnd ClientState :=
  if hseq : state.seq.val + 1 < 2 ^ 32 then
    let seq : ClientSeq := ⟨state.seq.val + 1, hseq⟩
    let command : Command := ⟨task.id, seq, op⟩
    if 0 ∈ task.replicaEgresses then
      ([.write command [0]], (makeRoom task.config state.seqScratch).map fun seqScratch =>
        ⟨seq, seqScratch.insert seq result⟩)
    else ([], .error .egress)
  else ([], .error .overflow)

def receive (state : ClientState) (reply : Reply) :
    List ClientAction × Except ClientEnd ClientState :=
  match state.seqScratch[reply.seq]? with
  | none => ([], .ok state)
  | some expectedResult =>
      if expectedResult.all (reply.result = ·) then
        ([.commit], .ok { state with seqScratch := state.seqScratch.erase reply.seq })
      else ([], .error .unexpectedResult)

/-- One iteration of the loop of `ClientTask::run`. -/
def step (state : ClientState) :
    ClientSelect Reply → List ClientAction × Except ClientEnd ClientState
  | .invoke none => ([], .error .finished)
  | .invoke (some (op, result)) => task.invoke state op result
  | .message none => ([], .error .messageChannelClosed)
  | .message (some reply) => receive state reply
  | .transportJoinNext => ([], .error .transport)

/-! ## What one iteration does -/

variable {task : ClientTask} {state next : ClientState} {actions : List ClientAction}

theorem invoke_ok {op : List UInt8} {expected : Option (List UInt8)}
    (hinvoke : task.invoke state op expected = (actions, .ok next)) :
    ∃ number seqScratch, number.val = state.seq.val + 1 ∧
      makeRoom task.config state.seqScratch = .ok seqScratch ∧
      actions = [.write ⟨task.id, number, op⟩ [0]] ∧
      next = ⟨number, seqScratch.insert number expected⟩ := by
  rw [invoke] at hinvoke
  split at hinvoke
  next hseq =>
    dsimp only at hinvoke
    split at hinvoke
    · obtain ⟨hactions, hnext⟩ := Prod.mk.inj hinvoke
      cases hroom : makeRoom task.config state.seqScratch with
      | error stop =>
          rw [hroom] at hnext
          cases hnext
      | ok seqScratch =>
          rw [hroom] at hnext
          exact ⟨_, seqScratch, rfl, rfl, hactions.symm, (Except.ok.inj hnext).symm⟩
    · cases hinvoke
  next => cases hinvoke

theorem invoke_error {op : List UInt8} {expected : Option (List UInt8)} {stop : ClientEnd}
    (hinvoke : task.invoke state op expected = (actions, .error stop)) :
    actions = [] ∧ (stop = .overflow ∨ stop = .egress ∧ 0 ∉ task.replicaEgresses) ∨
      makeRoom task.config state.seqScratch = .error stop := by
  rw [invoke] at hinvoke
  split at hinvoke
  · dsimp only at hinvoke
    split at hinvoke
    · obtain ⟨-, hnext⟩ := Prod.mk.inj hinvoke
      cases hroom : makeRoom task.config state.seqScratch with
      | error other =>
          rw [hroom] at hnext
          exact .inr (congrArg Except.error (Except.error.inj hnext))
      | ok seqScratch =>
          rw [hroom] at hnext
          cases hnext
    next hegress =>
      obtain ⟨hactions, hstop⟩ := Prod.mk.inj hinvoke
      exact .inl ⟨hactions.symm, .inr ⟨(Except.error.inj hstop).symm, hegress⟩⟩
  · obtain ⟨hactions, hstop⟩ := Prod.mk.inj hinvoke
    exact .inl ⟨hactions.symm, .inl (Except.error.inj hstop).symm⟩

theorem receive_ok {reply : Reply} (hreceive : receive state reply = (actions, .ok next)) :
    reply.seq ∉ state.seqScratch ∧ actions = [] ∧ next = state ∨
      reply.seq ∈ state.seqScratch ∧ actions = [.commit] ∧
        next = { state with seqScratch := state.seqScratch.erase reply.seq } := by
  rw [receive] at hreceive
  split at hreceive
  next hnone =>
    obtain ⟨hactions, hnext⟩ := Prod.mk.inj hreceive
    refine .inl ⟨?_, hactions.symm, (Except.ok.inj hnext).symm⟩
    rw [Std.ExtTreeMap.mem_iff_isSome_getElem?, hnone]
    exact Bool.false_ne_true
  next expectedResult hsome =>
    split at hreceive
    · obtain ⟨hactions, hnext⟩ := Prod.mk.inj hreceive
      refine .inr ⟨?_, hactions.symm, (Except.ok.inj hnext).symm⟩
      rw [Std.ExtTreeMap.mem_iff_isSome_getElem?, hsome]
      rfl
    · cases hreceive

end ClientTask

end BftKit.Unreplicated
