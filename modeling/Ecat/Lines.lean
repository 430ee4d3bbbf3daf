import Mathlib

/-! The lines of a text. -/

namespace Ecat

def stripCr (line : List Char) : List Char := if line.getLast? = some '\r' then line.dropLast else line

/-- The lines of what is left of a text, whose first one has begun with `line`. A carriage return
belongs to the line feed behind it. -/
def linesFrom (line : List Char) : List Char → List (List Char)
  | [] => if line = [] then [] else [line]
  | c :: cs => if c = '\n' then stripCr line :: linesFrom [] cs else linesFrom (line ++ [c]) cs

def lines (text : List Char) : List (List Char) := linesFrom [] text

/-- A text that is one line: no line feed, and no carriage return at its end. -/
structure IsLine (text : List Char) : Prop where
  lineFeed : '\n' ∉ text
  carriageReturn : text.getLast? ≠ some '\r'

theorem linesFrom_append {text : List Char} (h : '\n' ∉ text) (line rest : List Char) :
    linesFrom line (text ++ rest) = linesFrom (line ++ text) rest := by
  induction text generalizing line with
  | nil => rw [List.nil_append, List.append_nil]
  | cons c text ih =>
    rw [List.mem_cons, not_or] at h
    rw [List.cons_append, linesFrom, if_neg (Ne.symm h.1), ih h.2, List.append_assoc, List.singleton_append]

/-- Lines that each end in a line feed are read back. -/
theorem lines_flatMap {texts : List (List Char)} (h : ∀ text ∈ texts, IsLine text) :
    lines (texts.flatMap fun text => text ++ ['\n']) = texts := by
  induction texts with
  | nil => rfl
  | cons text texts ih =>
    obtain ⟨htext, hrest⟩ := List.forall_mem_cons.1 h
    rw [lines, List.flatMap_cons, List.append_assoc, linesFrom_append htext.lineFeed, List.nil_append, List.cons_append,
      linesFrom, if_pos rfl, stripCr, if_neg htext.carriageReturn, List.nil_append, ← lines, ih hrest]

end Ecat
