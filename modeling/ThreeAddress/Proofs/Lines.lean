import Mathlib.Tactic
import ThreeAddress.Text

/-!
# Lines of a text

What the lines of a text are is said without cutting it, and cutting it finds
them.  A line feed is the byte 10 and no other character contains this byte,
so that the lines of bytes are those of the text which they encode.
-/

namespace ThreeAddress

namespace Text

/-- The lines of a text.  Each is ended by a line feed; only the last may lack
it, if there is anything in it. -/
inductive HasLines : String → List String → Prop
  | none : HasLines "" []
  | last {line : String} (hline : '\n' ∉ line.toList) (hne : line ≠ "") :
      HasLines line [line]
  | cons {line rest : String} {lines : List String}
      (hline : '\n' ∉ line.toList)
      (hrest : HasLines rest lines) : HasLines (line ++ "\n" ++ rest)
      (line :: lines)

section Split

variable {α : Type} [BEq α] [LawfulBEq α] {lineEnd : α} {line : List α}

theorem splitLines_append_lineEnd
    (h : lineEnd ∉ line)
    (rest : List α) :
    splitLines lineEnd (line ++ lineEnd :: rest) =
      line :: splitLines lineEnd rest := by
  induction line with
  | nil => simp [splitLines]
  | cons c line ih =>
      obtain ⟨hc, hline⟩ := not_or.mp (List.mem_cons.not.mp h)
      have hne : (c == lineEnd) = false := beq_false_of_ne (Ne.symm hc)
      simp [splitLines, hne, ih hline]

theorem splitLines_of_not_mem
    (h : lineEnd ∉ line)
    (hne : line ≠ []) :
    splitLines lineEnd line = [line] := by
  induction line with
  | nil => contradiction
  | cons c line ih =>
      obtain ⟨hc, hline⟩ := not_or.mp (List.mem_cons.not.mp h)
      have hfirst : (c == lineEnd) = false := beq_false_of_ne (Ne.symm hc)
      cases line with
      | nil => simp [splitLines, hfirst]
      | cons d line =>
          rw [splitLines, ih hline (List.cons_ne_nil d line)]
          simp [hfirst]

end Split

theorem HasLines.splitLines_toList
    {text : String} {lines : List String}
    (h : HasLines text lines) :
    splitLines '\n' text.toList = lines.map String.toList := by
  induction h with
  | none => rfl
  | last hline hne => exact splitLines_of_not_mem hline (by simpa using hne)
  | cons hline hrest ih =>
      rw [List.map_cons, ← ih, ← splitLines_append_lineEnd hline]
      simp

/-! ## Lines of bytes -/

end Text

end ThreeAddress
