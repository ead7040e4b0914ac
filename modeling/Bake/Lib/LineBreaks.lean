import Mathlib.Init

/-!
# Lines ended by CRLF, CR or LF

A text read line by line as it comes. A CR at the end of what there is waits, since an LF
behind it would belong to the same line break; `drain_append` says that nothing else
depends on where a text is cut, and `pieces_eq` that at its end the lines and the rest are
what stands between the line breaks.
-/

open List

namespace LineBreaks

def push (c : Char) : List (List Char) × List Char → List (List Char) × List Char
 | ([], rest) => ([], c :: rest)
 | (line :: lines, rest) => ((c :: line) :: lines, rest)

def turn (lines : List (List Char) × List Char) : List (List Char) × List Char :=
 ([] :: lines.1, lines.2)

/-- The complete lines of a text, and the rest. At the end of the text a CR is a line
break, before it one waits. -/
def drain (atEnd : Bool) : List Char → List (List Char) × List Char
 | [] => ([], [])
 | '\n' :: rest => turn (drain atEnd rest)
 | '\r' :: '\n' :: rest => turn (drain atEnd rest)
 | ['\r'] => if atEnd then ([[]], []) else ([], ['\r'])
 | '\r' :: c :: rest => turn (drain atEnd (c :: rest))
 | c :: rest => push c (drain atEnd rest)

/-- What stands between the line breaks of a text, in order. -/
def pieces : List Char → List (List Char)
 | [] => [[]]
 | '\n' :: rest => [] :: pieces rest
 | '\r' :: '\n' :: rest => [] :: pieces rest
 | '\r' :: rest => [] :: pieces rest
 | c :: rest =>
  match pieces rest with
  | [] => [[c]]
  | piece :: more => (c :: piece) :: more

/-- The lines of two texts behind each other. -/
def join (a b : List (List Char) × List Char) : List (List Char) × List Char := (a.1 ++ b.1, b.2)

theorem drain_other {atEnd : Bool} {c : Char} (hc : c ≠ '\n' ∧ c ≠ '\r') (rest : List Char) :
 drain atEnd (c :: rest) = push c (drain atEnd rest) := by
 rw [drain] <;> simp [hc.1, hc.2]

theorem pieces_other {c : Char} (hc : c ≠ '\n' ∧ c ≠ '\r') (rest : List Char) :
 pieces (c :: rest) = match pieces rest with
  | [] => [[c]]
  | piece :: more => (c :: piece) :: more := by
 rw [pieces] <;> simp [hc.1, hc.2]

/-- **A text may be cut anywhere.** -/
theorem drain_append (atEnd : Bool) (text more : List Char) : drain atEnd (text ++ more)
  = join (drain false text) (drain atEnd ((drain false text).2 ++ more)) := by
 fun_induction drain false text with
 | case1 | case5 => rfl
 | case2 rest ih =>
  rw [cons_append, drain, ih]
  rfl
 | case3 rest ih =>
  rw [cons_append, cons_append, drain, ih]
  rfl
 | case4 h => exact absurd h (by decide)
 | case6 c rest hc ih =>
  rw [cons_append, cons_append, drain, ← cons_append, ih]
  · rfl
  · exact hc
 | case7 c rest hlf hcrlf hcr hcrc ih =>
  have hne : c ≠ '\n' ∧ c ≠ '\r' := by
   refine ⟨fun h => hlf h, fun h => ?_⟩
   cases rest with
   | nil => exact hcr h rfl
   | cons d rest => exact hcrc d rest h rfl
  rw [cons_append, drain_other hne, ih]
  cases hl : (drain false rest).1 with
  | nil =>
   have hd : drain false rest = ([], (drain false rest).2) := by rw [← hl]
   rw [hd]
   simp only [push, join, cons_append, nil_append]
   rw [drain_other hne]
   rfl
  | cons line lines =>
   have hd : drain false rest = (line :: lines, (drain false rest).2) := by rw [← hl]
   rw [hd]
   rfl

/-- At its end a text is its lines and the rest. -/
theorem pieces_eq (text : List Char) :
 pieces text = (drain true text).1 ++ [(drain true text).2] := by
 fun_induction drain true text with
 | case1 | case4 h => rfl
 | case2 rest ih | case3 rest ih =>
  rw [pieces, ih]
  rfl
 | case5 h => exact absurd rfl h
 | case6 c rest hc ih =>
  rw [pieces, ih]
  · rfl
  · exact fun _ h => hc (List.cons.inj h).1
 | case7 c rest hlf hcrlf hcr hcrc ih =>
  have hne : c ≠ '\n' ∧ c ≠ '\r' := by
   refine ⟨fun h => hlf h, fun h => ?_⟩
   cases rest with
   | nil => exact hcr h rfl
   | cons d rest => exact hcrc d rest h rfl
  rw [pieces_other hne, ih]
  cases hl : (drain true rest).1 with
  | nil =>
   have hd : drain true rest = ([], (drain true rest).2) := by rw [← hl]
   rw [hd]
   rfl
  | cons line lines =>
   have hd : drain true rest = (line :: lines, (drain true rest).2) := by rw [← hl]
   rw [hd]
   rfl

/-! ## Written lines -/

def inLine (c : Char) : Prop := c ≠ '\n' ∧ c ≠ '\r'

def OneLine (text : List Char) : Prop := ∀ c ∈ text, inLine c

inductive Break where
 | lf
 | cr
 | crlf

def Break.text : Break → List Char
 | .lf => ['\n']
 | .cr => ['\r']
 | .crlf => ['\r', '\n']

/-- A written line is a piece of the text; behind a CR no LF may follow. -/
theorem pieces_line {line : List Char} (h : OneLine line) (b : Break) {rest : List Char}
 (hrest : b = .cr → rest.head? ≠ some '\n') : pieces (line ++ b.text ++ rest) = line :: pieces rest := by
 induction line with
 | nil =>
  cases b with
  | lf | crlf => rfl
  | cr =>
   cases rest with
   | nil => rfl
   | cons c rest =>
    have hc : c ≠ '\n' := fun he => hrest rfl (by rw [he]; rfl)
    change pieces ('\r' :: c :: rest) = _
    rw [pieces]
    exact fun _ he => hc (List.cons.inj he).1
 | cons c line ih =>
  have hc : inLine c := h c (by simp)
  rw [cons_append, cons_append, pieces_other hc, ih fun d hd => h d (by simp [hd])]

def write (b : Break) (lines : List (List Char)) : List Char := lines.flatMap fun line => line ++ b.text

/-- Written lines are the pieces of their text, with nothing behind them. -/
theorem pieces_write {lines : List (List Char)}
 (h : ∀ line ∈ lines, OneLine line ∧ line.head? ≠ some '\n') (b : Break) :
 pieces (write b lines) = lines ++ [[]] := by
 induction lines with
 | nil => rfl
 | cons line lines ih =>
  have hrest := ih fun l hl => h l (by simp [hl])
  have hhead : b = .cr → (write b lines).head? ≠ some '\n' := by
   rintro rfl
   cases lines with
   | nil => simp [write]
   | cons next lines =>
    obtain ⟨-, hnext⟩ := h next (by simp)
    cases next with
    | nil => simp [write, Break.text]
    | cons c next => simpa [write] using hnext
  rw [write, flatMap_cons, ← write, pieces_line (h line (by simp)).1 b hhead, hrest]
  rfl

end LineBreaks
