import BftKit.Hotstuff.Message
import BftKit.Crypto.Transparent

/-! # What the hashed bytes determine

Commands are hashed one after another with nothing between them, so a long
operation can swallow the command behind it. Only lists too short for a second
command to hide in them can be told from all others by their bytes.
-/

namespace BftKit

theorem leBytes_surjective {width : Nat} {bytes : List UInt8} (hlength : bytes.length = width) :
    ∃ value < 256 ^ width, leBytes width value = bytes := by
  induction width generalizing bytes with
  | zero => exact ⟨0, by simp, by simp [leBytes, List.length_eq_zero_iff.mp hlength]⟩
  | succ width ih =>
      obtain ⟨byte, rest, rfl⟩ := List.exists_cons_of_length_eq_add_one hlength
      obtain ⟨value, hlt, hvalue⟩ := ih (Nat.succ.inj hlength)
      have hbyte : byte.toNat < 256 := byte.toNat_lt
      refine ⟨byte.toNat + 256 * value, ?_, ?_⟩
      · rw [pow_succ']
        omega
      · have hdiv : (byte.toNat + 256 * value) / 256 = value := by omega
        have hhead : UInt8.ofNat (byte.toNat + 256 * value) = byte := by
          rw [← UInt8.toNat_inj, UInt8.toNat_ofNat']
          omega
        rw [leBytes, hdiv, hvalue, hhead]

/-- Four bytes are the bytes of a number. -/
theorem exists_leBytes_four {bytes : List UInt8} (hlength : bytes.length = 4) :
    ∃ value : U32, leBytes 4 value = bytes := by
  obtain ⟨value, hlt, hvalue⟩ := leBytes_surjective hlength
  exact ⟨⟨value, hlt⟩, hvalue⟩

namespace Command

/-- The fields in front of the operation. -/
def header (command : Command) : List UInt8 := leBytes 4 command.clientId ++ leBytes 4 command.seq

@[simp] theorem length_header (command : Command) : command.header.length = 8 := by
  simp [header]

theorem updateHash_eq (command : Command) : updateHash command = command.header ++ command.op :=
  rfl

@[simp] theorem length_updateHash (command : Command) :
    (updateHash command).length = 8 + command.op.length := by
  simp [updateHash_eq]

theorem exists_header {bytes : List UInt8} (hlength : bytes.length = 8) (op : List UInt8) :
    ∃ command : Command, command.header = bytes ∧ command.op = op := by
  have hfirst : (bytes.take 4).length = 4 := by simp [hlength]
  have hsecond : (bytes.drop 4).length = 4 := by simp [hlength]
  obtain ⟨clientId, hclient⟩ := exists_leBytes_four hfirst
  obtain ⟨seq, hseq⟩ := exists_leBytes_four hsecond
  refine ⟨⟨clientId, seq, op⟩, ?_, rfl⟩
  rw [header, hclient, hseq, List.take_append_drop]

/-- The bytes of one command determine it. -/
theorem updateHash_injective {command command' : Command}
    (heq : updateHash command = updateHash command') : command = command' := by
  rw [updateHash_eq, updateHash_eq] at heq
  obtain ⟨hheader, hop⟩ := List.append_inj heq (by simp)
  obtain ⟨hclient, hseq⟩ := List.append_inj hheader (by simp)
  have hclient := leBytes_injective command.clientId.isLt command'.clientId.isLt hclient
  have hseq := leBytes_injective command.seq.isLt command'.seq.isLt hseq
  cases command
  cases command'
  simp_all [Fin.ext_iff]

end Command

@[simp] theorem updateHash_nil : updateHash ([] : List Command) = [] := rfl

@[simp] theorem updateHash_cons (command : Command) (commands : List Command) :
    updateHash (command :: commands) = updateHash command ++ updateHash commands :=
  List.flatMap_cons

/-- Each command takes eight bytes at least. -/
theorem eight_mul_length_le (commands : List Command) :
    8 * commands.length ≤ (updateHash commands).length := by
  induction commands with
  | nil => simp
  | cons command commands ih =>
      simp only [updateHash_cons, List.length_append, Command.length_updateHash,
        List.length_cons]
      omega

/-- No second command fits into the bytes of the list. -/
def Unsplittable (commands : List Command) : Prop :=
  commands = [] ∨ ∃ command, commands = [command] ∧ command.op.length < 8

namespace Unsplittable

theorem iff_length {commands : List Command} :
    Unsplittable commands ↔ (updateHash commands).length < 16 := by
  constructor
  · rintro (rfl | ⟨command, rfl, hop⟩)
    · simp
    · simp only [updateHash_cons, updateHash_nil, List.append_nil, Command.length_updateHash]
      omega
  · intro hlength
    have hcount := eight_mul_length_le commands
    rcases commands with _ | ⟨command, _ | ⟨command', rest⟩⟩
    · exact .inl rfl
    · simp only [updateHash_cons, updateHash_nil, List.append_nil, Command.length_updateHash]
        at hlength
      exact .inr ⟨command, rfl, by omega⟩
    · simp only [List.length_cons] at hcount
      omega

/-- An unsplittable list is the only one with its bytes. -/
theorem eq {commands commands' : List Command} (hcommands : Unsplittable commands)
    (heq : updateHash commands' = updateHash commands) : commands' = commands := by
  have hcommands' : Unsplittable commands' := by rw [iff_length, heq, ← iff_length]; exact hcommands
  have hlength := congrArg List.length heq
  rcases hcommands with rfl | ⟨command, rfl, -⟩ <;> rcases hcommands' with rfl | ⟨command', rfl, -⟩
  · rfl
  · simp at hlength
  · simp at hlength
    omega
  · simp only [updateHash_cons, updateHash_nil, List.append_nil] at heq
    rw [Command.updateHash_injective heq]

/-- Any other list has the bytes of a different one. -/
theorem exists_ne {commands : List Command} (hcommands : ¬ Unsplittable commands) :
    ∃ commands', updateHash commands' = updateHash commands ∧ commands' ≠ commands := by
  rcases commands with _ | ⟨command, _ | ⟨command', rest⟩⟩
  · exact absurd (.inl rfl) hcommands
  · -- one long operation: its first eight bytes become the header of a second command
    have hop : 8 ≤ command.op.length :=
      not_lt.mp fun hop => hcommands (.inr ⟨command, rfl, hop⟩)
    have hlength : (command.op.take 8).length = 8 := by simpa using hop
    obtain ⟨second, hheader, hsecond⟩ := Command.exists_header hlength (command.op.drop 8)
    refine ⟨[{ command with op := [] }, second], ?_, by simp⟩
    simp only [updateHash_cons, updateHash_nil, List.append_nil, Command.updateHash_eq, hheader,
      hsecond, List.take_append_drop]
    rfl
  · -- two commands: the first swallows the second
    refine ⟨{ command with op := command.op ++ updateHash command' } :: rest, ?_, ?_⟩
    · simp only [updateHash_cons, Command.updateHash_eq, List.append_assoc]
      rfl
    · intro heq
      simpa using congrArg List.length heq

end Unsplittable

namespace Hotstuff.Message

variable {scheme : ThresholdScheme}

/-- The bytes of a block determine the bytes of each field. -/
theorem Block.updateHash_inj {block block' : Block scheme} (hheight : block.height < 2 ^ 32)
    (hheight' : block'.height < 2 ^ 32) :
    updateHash block' = updateHash block ↔
      block'.parent = block.parent ∧ updateHash block'.commands = updateHash block.commands ∧
        block'.justify.node = block.justify.node ∧ block'.height = block.height := by
  constructor
  · intro heq
    obtain ⟨hrest, hlast⟩ := List.append_inj' heq (by simp)
    obtain ⟨hrest, hjustify⟩ := List.append_inj' hrest (by simp [Digest.length_bytes])
    obtain ⟨hparent, hcommands⟩ := List.append_inj hrest (by simp [Digest.length_bytes])
    refine ⟨?_, hcommands, ?_, leBytes_injective hheight' hheight hlast⟩
    · exact Digest.ext hparent
    · exact Digest.ext hjustify
  · rintro ⟨hparent, hcommands, hjustify, hlast⟩
    simp only [updateHash, hparent, hjustify, hlast] at hcommands ⊢
    rw [hcommands]

end Hotstuff.Message

open Hotstuff.Message

/-- The bytes of a command list, or of a block with that list, single it out exactly if
no second command fits into the bytes of the list. -/
theorem updateHash_unambiguous_iff (scheme : ThresholdScheme) :
    (∀ commands : List Command,
      (∀ commands', updateHash commands' = updateHash commands → commands' = commands) ↔
        Unsplittable commands) ∧
    (∀ block : Block scheme, block.height < 2 ^ 32 →
      ((∀ block' : Block scheme, block'.height < 2 ^ 32 →
        updateHash block' = updateHash block → block.SameHashed block') ↔
        Unsplittable block.commands)) := by
  constructor
  · intro commands
    constructor
    · intro hunique
      by_contra hcommands
      obtain ⟨commands', heq, hne⟩ := Unsplittable.exists_ne hcommands
      exact hne (hunique commands' heq)
    · intro hcommands commands' heq
      exact hcommands.eq heq
  · intro block hheight
    constructor
    · intro hunique
      by_contra hcommands
      obtain ⟨commands', heq, hne⟩ := Unsplittable.exists_ne hcommands
      have hbytes : updateHash { block with commands := commands' } = updateHash block := by
        refine (Block.updateHash_inj ?_ ?_).mpr ⟨rfl, heq, rfl, rfl⟩ <;> exact hheight
      exact hne (hunique { block with commands := commands' } hheight hbytes).2.1
    · intro hcommands block' hheight' heq
      obtain ⟨hparent, hbytes, hjustify, hlast⟩ := (Block.updateHash_inj hheight hheight').mp heq
      exact ⟨hparent, hcommands.eq hbytes, hjustify, hlast⟩

theorem updateHash_unambiguous_genesisChild :
    Unsplittable [⟨1, 2, [3]⟩] ∧
      let block : Block .transparent :=
        { parent := .zero, commands := [⟨1, 2, [3]⟩], justify := ⟨.zero, .vec []⟩, height := 1 }
      ∀ block' : Block .transparent, block'.height < 2 ^ 32 →
        updateHash block' = updateHash block → block.SameHashed block' := by
  have hshort : Unsplittable [⟨1, 2, [3]⟩] := .inr ⟨_, rfl, by decide⟩
  exact ⟨hshort, ((updateHash_unambiguous_iff .transparent).2 _ (by decide)).mpr hshort⟩

/-- One command with eight zero bytes feeds the hasher what two empty ones do. -/
theorem updateHash_ambiguous :
    (∃ commands commands' : List Command,
      updateHash commands = updateHash commands' ∧ commands ≠ commands') ∧
    (∃ block block' : Block .transparent, block.height < 2 ^ 32 ∧ block'.height < 2 ^ 32 ∧
      updateHash block = updateHash block' ∧ ¬ block'.SameHashed block) := by
  let single : List Command := [⟨0, 0, List.replicate 8 0⟩]
  let double : List Command := [⟨0, 0, []⟩, ⟨0, 0, []⟩]
  have hbytes : updateHash single = updateHash double := by decide +kernel
  have hne : single ≠ double := by decide
  refine ⟨⟨single, double, hbytes, hne⟩, ?_⟩
  let block (commands : List Command) : Block .transparent :=
    { parent := .zero, commands, justify := ⟨.zero, .vec []⟩, height := 1 }
  have hheight : ∀ commands, (block commands).height < 2 ^ 32 := fun commands =>
    (block commands).height_lt
  exact ⟨block single, block double, hheight single, hheight double,
    (Block.updateHash_inj (hheight _) (hheight _)).mpr ⟨rfl, hbytes, rfl, rfl⟩,
    fun hsame => hne hsame.2.1⟩

end BftKit
