import ThreeAddress.Machine
import ThreeAddress.Proofs.Lines

/-!
# Questions at the prompt

A question is put again until a line answers it.  The first line that can be
read as a value of the wanted type is the answer; it is taken from the input
together with the lines before it, and the next question starts behind it.  If
there is no such line, the input is used up and the question fails.
-/

namespace ThreeAddress

namespace Prompt

open Text (HasLines)
open Dialogue (question complaint answer? askOnce)

section Loop

theorem bind_apply
    {α β : Type} (x : StateM Prompt α) (f : α → StateM Prompt β)
    (prompt : Prompt) :
    (x >>= f) prompt = f (x prompt).1 (x prompt).2 := rfl

variable {name : String} {type : ValueType} {prompt next : Prompt}

theorem ask_of_outcome
    {outcome : Except ValueFault Cell}
    (h : (askOnce name type : StateM Prompt _) prompt =
      (.inr outcome, next)) :
    ask name type prompt = (outcome, next) := by
  rw [ask, Dialogue.ask, repeatM_eq_of_monadTail, repeatM.body, bind_apply, h]
  rfl

theorem ask_of_refusal
    (h : (askOnce name type : StateM Prompt _) prompt = (.inl (), next)) :
    ask name type prompt = ask name type next := by
  conv_lhs =>
    rw [ask, Dialogue.ask, repeatM_eq_of_monadTail, repeatM.body,
      bind_apply, h]
  rfl

variable (name type) (written : String) (rest : List (Option String))

theorem ask_of_end :
    ask name type ⟨[], written⟩ =
      (.error .inputEnded, ⟨[], written ++ question name type⟩) :=
  ask_of_outcome rfl

theorem ask_of_bytes :
    ask name type ⟨none :: rest, written⟩ =
      (.error .notText, ⟨rest, written ++ question name type⟩) :=
  ask_of_outcome rfl

variable {type} {line : String}

theorem ask_of_value
    {cell : Cell}
    (h : answer? type line = some cell) :
    ask name type ⟨some line :: rest, written⟩ =
      (.ok cell, ⟨rest, written ++ question name type⟩) := by
  apply ask_of_outcome
  simp only [askOnce, bind_apply, Dialogue.say, Dialogue.readLine, h]
  rfl

theorem ask_of_none
    (h : answer? type line = none) :
    ask name type ⟨some line :: rest, written⟩ =
      ask name type ⟨rest, written ++ question name type ++ complaint⟩ := by
  apply ask_of_refusal
  simp only [askOnce, bind_apply, Dialogue.say, Dialogue.readLine, h]
  rfl

end Loop

/-! ## One question -/

variable {name : String} {type : ValueType}

end Prompt

end ThreeAddress
