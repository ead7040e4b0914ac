import Mathlib.Data.List.Basic

/-!
# Windows command lines

`command_line.rs`: the command line for an argument vector, in UTF-16 code units, and what
`CommandLineToArgvW` reads from a command line. A backslash escapes only in front of a
quote, so the writer doubles the runs that stand there and copies the others; the reader
counts the backslashes it has not decided about yet.
-/

open List

namespace Bake.Process.CommandLine

def quote : UInt16 := 0x22
def backslash : UInt16 := 0x5c
def blank : UInt16 := 0x20
def tab : UInt16 := 0x09

def isSpace (unit : UInt16) : Bool := unit ∈ [blank, tab, 0x0a, 0x0b, 0x0c, 0x0d]

/-- Whether `quote_arg` puts an argument in quotes. -/
def needsQuotes (argument : List UInt16) : Bool :=
 argument.isEmpty || argument.any fun unit => isSpace unit || unit == quote

/-- The loop of `quote_arg`, behind a run of so many backslashes. -/
def quoteLoop (backslashes : Nat) : List UInt16 → List UInt16
 | [] => replicate (backslashes * 2) backslash
 | unit :: rest =>
  if unit = backslash then quoteLoop (backslashes + 1) rest
  else if unit = quote then
   replicate (backslashes * 2 + 1) backslash ++ quote :: quoteLoop 0 rest
  else replicate backslashes backslash ++ unit :: quoteLoop 0 rest

/-- What `quote_arg` appends to the line. -/
def quoteArg (argument : List UInt16) : List UInt16 :=
 if needsQuotes argument then quote :: (quoteLoop 0 argument ++ [quote]) else argument

def buildCommandLine : List (List UInt16) → List UInt16
 | [] => []
 | first :: rest => quoteArg first ++ rest.flatMap fun argument => blank :: quoteArg argument

/-! ## The reader -/

/-- The first entry and what stands behind it. Nothing is an escape in it: it goes up to its
closing quote, or to white space. -/
def firstEntry : List UInt16 → List UInt16 × List UInt16
 | [] => ([], [])
 | unit :: rest =>
  if unit = quote then (rest.takeWhile (· != quote), (rest.dropWhile (· != quote)).tail)
  else ((unit :: rest).takeWhile (!isSpace ·), (unit :: rest).dropWhile (!isSpace ·))

/-- The other entries. `entry` is what was read of one that has begun, without the
backslashes directly before this place; `2n` of them before a quote are `n` and the quote
opens or closes, `2n + 1` are `n` and the quote is read, and elsewhere they are read as they
are. Blanks and tabs outside quotes separate. -/
def laterEntries (entry : Option (List UInt16)) (quoted : Bool) (backslashes : Nat) :
 List UInt16 → List (List UInt16)
 | [] => (entry.map (· ++ replicate backslashes backslash)).toList
 | unit :: rest =>
  let read := entry.getD []
  if unit = backslash then laterEntries (some read) quoted (backslashes + 1) rest
  else if unit = quote then
   let read := read ++ replicate (backslashes / 2) backslash
   if backslashes % 2 = 0 then laterEntries (some read) (!quoted) 0 rest
   else laterEntries (some (read ++ [quote])) quoted 0 rest
  else if !quoted && (unit == blank || unit == tab) then
   (entry.map (· ++ replicate backslashes backslash)).toList ++ laterEntries none false 0 rest
  else laterEntries (some (read ++ replicate backslashes backslash ++ [unit])) quoted 0 rest

/-- `CommandLineToArgvW`. -/
def commandLineToArgv (line : List UInt16) : List (List UInt16) :=
 let (first, rest) := firstEntry line
 first :: laterEntries none false 0 rest

/-! ## Reading back -/

variable {argument read follow : List UInt16} {n : Nat}

theorem laterEntries_replicate (quoted : Bool) (m : Nat) :
 laterEntries (some read) quoted n (replicate m backslash ++ follow)
  = laterEntries (some read) quoted (n + m) follow := by
 induction m generalizing n with
 | zero => rfl
 | succ m ih =>
  rw [replicate_succ, cons_append, laterEntries, if_pos rfl, Option.getD_some, ih]
  congr 1
  omega

/-- Between its quotes an argument is read as it was, and the closing quote closes. -/
theorem laterEntries_quoteLoop :
 laterEntries (some read) true 0 (quoteLoop n argument ++ quote :: follow)
  = laterEntries (some (read ++ replicate n backslash ++ argument)) false 0 follow := by
 induction argument generalizing read n with
 | nil =>
  rw [quoteLoop, laterEntries_replicate, laterEntries, if_neg (by decide), if_pos rfl,
   if_pos (by omega)]
  simp [show n * 2 / 2 = n by omega]
 | cons unit rest ih =>
  rw [quoteLoop]
  split
  next hunit =>
   rw [ih, hunit, replicate_succ', ← append_assoc, append_assoc _ [backslash], singleton_append]
  split
  next hunit =>
   rw [append_assoc, laterEntries_replicate, cons_append, laterEntries, if_neg (by decide),
    if_pos rfl, if_neg (by omega), ih, hunit]
   simp [show (n * 2 + 1) / 2 = n by omega]
  next hbackslash hquote =>
   rw [append_assoc, laterEntries_replicate, cons_append, laterEntries, if_neg hbackslash,
    if_neg hquote, if_neg (by simp), ih]
   simp

/-- What may stand behind an entry: nothing, or what separates. -/
def Ends (follow : List UInt16) : Prop := ∀ read n, laterEntries (some read) false n follow
  = (read ++ replicate n backslash) :: laterEntries none false 0 follow

variable (rest : List (List UInt16))

theorem ends_entries : Ends (rest.flatMap fun argument => blank :: quoteArg argument) := by
 intro read n
 cases rest with
 | nil | cons argument rest => rfl

theorem needsQuotes_false (h : needsQuotes argument = false) :
 argument ≠ [] ∧ ∀ unit ∈ argument, isSpace unit = false ∧ unit ≠ quote := by
 simp only [needsQuotes, Bool.or_eq_false_iff, any_eq_false, Bool.not_eq_true] at h
 refine ⟨fun he => by simp [he] at h, fun unit hunit => ?_⟩
 have := h.2 unit hunit
 exact ⟨this.1, by simpa using this.2⟩

theorem laterEntries_plain (hplain : ∀ unit ∈ argument, isSpace unit = false ∧ unit ≠ quote)
 (hf : Ends follow) : laterEntries (some read) false n (argument ++ follow)
  = (read ++ replicate n backslash ++ argument) :: laterEntries none false 0 follow := by
 induction argument generalizing read n with
 | nil => rw [append_nil, nil_append, hf]
 | cons unit rest ih =>
  have hrest := fun u hu => hplain u (mem_cons_of_mem _ hu)
  obtain ⟨hspace, hquote⟩ := hplain unit mem_cons_self
  rw [cons_append, laterEntries, Option.getD_some]
  split
  next hunit =>
   rw [ih hrest, hunit, replicate_succ', ← append_assoc, append_assoc _ [backslash],
    singleton_append]
  · rw [if_neg (by simp_all [isSpace]), ih hrest]
    simp

theorem laterEntries_quoteArg (hf : Ends follow) :
 laterEntries none false 0 (quoteArg argument ++ follow)
  = argument :: laterEntries none false 0 follow := by
 rw [quoteArg]
 split
 · rw [cons_append, append_assoc, laterEntries, if_neg (by decide), if_pos rfl, if_pos rfl]
   exact (laterEntries_quoteLoop).trans (by simpa using hf argument 0)
 next hneeds =>
  obtain ⟨hne, hplain⟩ := needsQuotes_false (Bool.not_eq_true _ ▸ hneeds)
  -- an entry begins with its first unit as it goes on
  have hbegin : laterEntries none false 0 (argument ++ follow)
   = laterEntries (some []) false 0 (argument ++ follow) := by
   cases argument with
   | nil => exact absurd rfl hne
   | cons unit rest =>
    obtain ⟨hspace, hquote⟩ := hplain unit mem_cons_self
    have hseparates : (unit == blank || unit == tab) = false := by simp_all [isSpace]
    simp only [cons_append, laterEntries, hseparates, if_neg hquote, Option.getD_none,
     Option.getD_some, Bool.and_false, Bool.false_eq_true, if_false]
  rw [hbegin, laterEntries_plain hplain hf]
  rfl

theorem laterEntries_all :
 laterEntries none false 0 (rest.flatMap fun argument => blank :: quoteArg argument) = rest := by
 induction rest with
 | nil => rfl
 | cons argument rest ih =>
  have hblank : ∀ follow, laterEntries none false 0 (blank :: follow)
   = laterEntries none false 0 follow := fun _ => rfl
  rw [flatMap_cons, cons_append, hblank, laterEntries_quoteArg (ends_entries rest), ih]

/-- Without quotes, and without a backslash at its end, an argument is copied. -/
theorem quoteLoop_copies (hquote : quote ∉ argument)
 (hend : (replicate n backslash ++ argument).getLast? ≠ some backslash) :
 quoteLoop n argument = replicate n backslash ++ argument := by
 induction argument generalizing n with
 | nil =>
  cases n with
  | zero => rfl
  | succ n => simp [replicate_succ'] at hend
 | cons unit rest ih =>
  rw [quoteLoop]
  obtain ⟨hunit, hrest⟩ : quote ≠ unit ∧ quote ∉ rest := by simpa using hquote
  split
  next hb =>
   subst hb
   have hrun : replicate n backslash ++ backslash :: rest
    = replicate (n + 1) backslash ++ rest := by rw [replicate_succ']; simp
   rw [hrun] at hend ⊢
   exact ih hrest hend
  · rw [if_neg (Ne.symm hunit), ih hrest (n := 0)]
    · rfl
    next hb =>
     cases rest with
     | nil => simp
     | cons u us => simpa [getLast?_append] using hend

theorem firstEntry_quoteArg (hquote : quote ∉ argument)
 (hend : ¬(needsQuotes argument ∧ argument.getLast? = some backslash))
 (hf : ∀ unit ∈ follow.head?, unit = blank) :
 firstEntry (quoteArg argument ++ follow) = (argument, follow) := by
 have hkeep : ∀ unit ∈ argument, (unit != quote) = true := fun unit hunit => by
  simp only [bne_iff_ne]
  exact fun he => hquote (he ▸ hunit)
 rw [quoteArg]
 split
 next hneeds =>
  rw [quoteLoop_copies hquote fun he => hend ⟨hneeds, by simpa using he⟩]
  have hline : quote :: (replicate 0 backslash ++ argument ++ [quote]) ++ follow
   = quote :: (argument ++ quote :: follow) := by simp
  rw [hline, firstEntry, if_pos rfl, takeWhile_append_of_pos hkeep, dropWhile_append_of_pos hkeep]
  simp
 next hneeds =>
  obtain ⟨hne, hplain⟩ := needsQuotes_false (Bool.not_eq_true _ ▸ hneeds)
  have hspaces : ∀ unit ∈ argument, (!isSpace unit) = true := fun unit hunit => by
   simp [(hplain unit hunit).1]
  have hstop : follow.takeWhile (!isSpace ·) = [] ∧ follow.dropWhile (!isSpace ·) = follow := by
   cases follow with
   | nil => exact ⟨rfl, rfl⟩
   | cons unit rest =>
    obtain rfl := hf unit rfl
    exact ⟨rfl, rfl⟩
  have hread : firstEntry (argument ++ follow) = ((argument ++ follow).takeWhile (!isSpace ·),
   (argument ++ follow).dropWhile (!isSpace ·)) := by
   cases argument with
   | nil => exact absurd rfl hne
   | cons unit rest =>
    rw [cons_append, firstEntry, if_neg (hplain unit mem_cons_self).2]
  rw [hread, takeWhile_append_of_pos hspaces, dropWhile_append_of_pos hspaces, hstop.1,
   hstop.2, append_nil]

/-- **A command line is read back** as the arguments it was made of. Only the first is in
danger: nothing escapes in it. -/
theorem argv_reads_back (first : List UInt16) (rest : List (List UInt16)) (hquote : quote ∉ first)
 (hend : ¬(needsQuotes first ∧ first.getLast? = some backslash)) :
 commandLineToArgv (buildCommandLine (first :: rest)) = first :: rest := by
 have hf : ∀ unit ∈ (rest.flatMap fun argument => blank :: quoteArg argument).head?,
  unit = blank := by
  cases rest with
  | nil | cons argument rest => simp
 rw [commandLineToArgv, buildCommandLine, firstEntry_quoteArg hquote hend hf]
 exact congrArg (first :: ·) (laterEntries_all rest)

theorem argv_reads_back_quoted :
 commandLineToArgv (buildCommandLine [[0x61, 0x20, 0x62], [], [0x22, 0x5c], [0x20, 0x5c]])
  = [[0x61, 0x20, 0x62], [], [0x22, 0x5c], [0x20, 0x5c]] :=
 argv_reads_back _ _ (by decide) (by decide)

end Bake.Process.CommandLine
