import Bake.Tools.Truncate
import Mathlib.Data.List.Infix
import Mathlib.Order.Bounds.Basic

/-!
# Truncation, exactly

`truncate_head` and `truncate_tail` as the source runs them, on unsigned numbers: a
subtraction that underflows, a cut inside a character and a search past the end of a line
have no result. `tailLoop_eq` says that `truncate_tail` meets none of the three, and
`truncation_exact` what both functions return: the most whole lines that the limits hold.
-/

open List Text

namespace Bake.Tools

open Text (size rows spent lastBytes)
open TruncationResult
open Or

/-- A subtraction of `usize`s. -/
def checkedSub (a b : Nat) : Option Nat := if b ≤ a then some (a - b) else none

/-- The loop over the lines of `truncate_head`. -/
def headLoop (options : TruncationOptions) :
 List (List Char) → TruncationResult → Option TruncationResult
 | [], result => some result
 | line :: more, result => do
  let separator := if result.outputLines > 0 then 1 else 0
  let room ← checkedSub options.maxBytes result.outputBytes
  if size line + separator > room then
   some { result with truncatedBy := some .bytes }
  else
   let content := result.content ++ (if separator > 0 then ['\n'] else []) ++ line
   headLoop options more
    { result with
      content, outputLines := result.outputLines + 1, outputBytes := size content }

def truncateHead (content : List Char) (options : TruncationOptions) : Option TruncationResult :=
 let result := initial content options
 if !result.truncated then some (unchanged result content)
 else if (rows content).head?.any (fun line => size line > options.maxBytes) then
  some { result with truncatedBy := some .bytes, firstLineExceedsLimit := true }
 else headLoop options ((rows content).take options.maxLines) result

def isCharBoundary (line : List Char) (index : Nat) : Bool :=
 line.inits.any fun front => size front = index

/-- `while !line.is_char_boundary(start)`, for a number of steps. -/
def nextBoundary (line : List Char) : Nat → Nat → Option Nat
 | 0, _ => none
 | steps + 1, start =>
  if isCharBoundary line start then some start else nextBoundary line steps (start + 1)

/-- `&line[start..]`. -/
def sliceFrom : List Char → Nat → Option (List Char)
 | [], start => if start = 0 then some [] else none
 | c :: rest, start =>
  if start = 0 then some (c :: rest)
  else do
   let start ← checkedSub start c.utf8Size
   sliceFrom rest start

/-- The end of the last line, where that alone is too long. -/
def partialLine (maxBytes : Nat) (line : List Char) : Option Kept := do
 let start ← nextBoundary line (size line + 1) (size line - maxBytes)
 let part ← sliceFrom line start
 let outputBytes ← checkedSub (size line) start
 some { lines := [part], outputBytes, truncatedBy := some .bytes, lastLinePartial := true }

/-- The loop over the lines of `truncate_tail`, the last one first. -/
def tailLoop (options : TruncationOptions) : List (List Char) → Kept → Option Kept
 | [], kept => some kept
 | line :: more, kept => do
  let separator := (!kept.lines.isEmpty).toNat
  let room ← checkedSub options.maxBytes kept.outputBytes
  if size line + separator > room then
   if kept.lines.isEmpty then partialLine options.maxBytes line
   else some { kept with truncatedBy := some .bytes }
  else
   tailLoop options more
    { kept with
      lines := kept.lines ++ [line]
      outputBytes := kept.outputBytes + (separator + size line) }

/-- `truncate_tail`, as it runs. -/
def tailResult (content : List Char) (options : TruncationOptions) : Option TruncationResult :=
 let result := initial content options
 if !result.truncated then some (unchanged result content)
 else do
  let kept ← tailLoop options ((rows content).reverse.take options.maxLines)
   { lines := [], outputBytes := result.outputBytes, truncatedBy := result.truncatedBy,
     lastLinePartial := result.lastLinePartial }
  some { result with
   truncatedBy := if kept.lines.length ≥ options.maxLines
    ∧ kept.outputBytes ≤ options.maxBytes then some .lines else kept.truncatedBy
   outputBytes := kept.outputBytes
   lastLinePartial := kept.lastLinePartial
   outputLines := kept.lines.length
   content := ['\n'].intercalate kept.lines.reverse }

/-! ## No subtraction underflows -/

theorem checkedSub_of_le {a b : Nat} (h : b ≤ a) : checkedSub a b = some (a - b) := if_pos h

variable {line content : List Char} {options : TruncationOptions}

theorem isCharBoundary_iff {index : Nat} :
 isCharBoundary line index = true ↔ ∃ front back, line = front ++ back ∧ size front = index := by
 simp only [isCharBoundary, any_eq_true, mem_inits, decide_eq_true_eq]
 constructor
 · rintro ⟨front, ⟨back, rfl⟩, h⟩
   exact ⟨front, back, rfl, h⟩
 · rintro ⟨front, back, rfl, h⟩
   exact ⟨front, prefix_append front back, h⟩

theorem nextBoundary_eq {boundary : Nat} (hboundary : isCharBoundary line boundary = true)
 (steps start : Nat) (hstart : start ≤ boundary) (hsteps : boundary < start + steps)
 (hfirst : ∀ index, start ≤ index → index < boundary → isCharBoundary line index = false) :
 nextBoundary line steps start = some boundary := by
 induction steps generalizing start with
 | zero => omega
 | succ steps ih =>
  rw [nextBoundary]
  by_cases hlt : start < boundary
  · rw [hfirst start (Nat.le_refl _) hlt]
    exact ih (start + 1) hlt (by omega) fun index hle hlt => hfirst index (by omega) hlt
  · obtain rfl : start = boundary := by omega
    rw [if_pos hboundary]

theorem sliceFrom_append (front back : List Char) :
 sliceFrom (front ++ back) (size front) = some back := by
 induction front with
 | nil => cases back <;> simp [sliceFrom]
 | cons c front ih =>
  have hpos := Char.utf8Size_pos c
  rw [cons_append, sliceFrom, size_cons, if_neg (by omega),
   checkedSub_of_le (by omega), Nat.add_sub_cancel_left]
  exact ih

theorem size_le_of_prefix {a b : List Char} (h : a <+: b) : size a ≤ size b := by
 obtain ⟨c, rfl⟩ := h
 rw [size_append]
 omega

/-- The end of an overlong line is cut at the first boundary that leaves it short enough. -/
theorem overlong {maxBytes : Nat} (h : maxBytes < size line) :
 ∃ front, line = front ++ lastBytes maxBytes line
  ∧ nextBoundary line (size line + 1) (size line - maxBytes) = some (size front) := by
 obtain ⟨front, c, heq, hcut⟩ := lastBytes_cut h
 have hle := size_lastBytes_le maxBytes line
 generalize lastBytes maxBytes line = kept at heq hcut hle ⊢
 subst heq
 refine ⟨front ++ [c], by simp, ?_⟩
 have hsize : size (front ++ c :: kept) = size front + c.utf8Size + size kept := by
  rw [size_append, size_cons]
  omega
 have hfront : size (front ++ [c]) = size front + c.utf8Size := by simp
 refine nextBoundary_eq (isCharBoundary_iff.mpr ⟨front ++ [c], kept, by simp, rfl⟩) _ _
  (by omega) (by omega) fun index hle' hlt => ?_
 rw [Bool.eq_false_iff]
 intro hboundary
 obtain ⟨a, b, hab, rfl⟩ := isCharBoundary_iff.mp hboundary
 have ha : a <+: front ++ c :: kept := ⟨b, hab.symm⟩
 -- a boundary in front of `c` leaves too much, and one behind it lies behind the cut
 by_cases hlength : a.length ≤ front.length
 · have := size_le_of_prefix (prefix_of_prefix_length_le ha (prefix_append _ _) hlength)
   omega
 · have hc : front ++ [c] <+: front ++ c :: kept := ⟨kept, by simp⟩
   have := size_le_of_prefix (prefix_of_prefix_length_le hc ha (by simp; omega))
   omega

theorem partialLine_eq {maxBytes : Nat} (h : maxBytes < size line) : partialLine maxBytes line
  = some { lines := [lastBytes maxBytes line], outputBytes := size (lastBytes maxBytes line)
           truncatedBy := some .bytes, lastLinePartial := true } := by
 obtain ⟨front, heq, hnext⟩ := overlong h
 have hsize : size line = size front + size (lastBytes maxBytes line) := by
  rw [← size_append, ← heq]
 have hslice : sliceFrom line (size front) = some (lastBytes maxBytes line) := by
  conv => lhs; rw [heq]
  exact sliceFrom_append _ _
 rw [partialLine, hnext, Option.bind_eq_bind, Option.bind_some, hslice, Option.bind_eq_bind,
  Option.bind_some, checkedSub_of_le (by omega), hsize, Nat.add_sub_cancel_left]
 rfl

/-- What has been kept fits at every turn of the loop, so nothing underflows. -/
theorem tailLoop_eq (options : TruncationOptions) (lines : List (List Char)) (kept : Kept)
 (hspent : kept.outputBytes = spent kept.lines) (hfits : spent kept.lines ≤ options.maxBytes) :
 tailLoop options lines kept = some (keepLines options lines kept) := by
 induction lines generalizing kept with
 | nil => rfl
 | cons line more ih =>
  rw [tailLoop, keepLines, checkedSub_of_le (by omega), Option.bind_eq_bind, Option.bind_some]
  by_cases hlong : size line + (!kept.lines.isEmpty).toNat > options.maxBytes - kept.outputBytes
  · rw [if_pos hlong, if_pos hlong]
    by_cases hempty : kept.lines.isEmpty = true
    · have hnil : kept.lines = [] := List.isEmpty_iff.mp hempty
      rw [hnil, hspent, hnil] at hlong
      rw [if_pos hempty, if_pos hempty, hnil, partialLine_eq (by simpa [spent] using hlong)]
      rfl
    · rw [if_neg hempty, if_neg hempty]
  · rw [if_neg hlong, if_neg hlong]
    refine ih _ ?_ ?_
    · dsimp only
      rw [spent_concat, hspent]
    · dsimp only
      rw [spent_concat]
      omega

/-- **`truncate_tail` runs through**: no subtraction underflows, and the search for a
character boundary ends inside the line. -/
theorem tailResult_eq (content : List Char) (options : TruncationOptions) :
 tailResult content options = some (truncateTail content options) := by
 unfold tailResult truncateTail
 dsimp only
 split
 · rfl
 · rw [tailLoop_eq _ _ _ rfl (Nat.zero_le _)]
   rfl

/-! ## The most lines -/

/-- `k` is the most of the lines that the limits hold, put together with newlines. -/
def Most (options : TruncationOptions) (lines : List (List Char)) (k : Nat) : Prop :=
 IsGreatest {j | j ≤ options.maxLines ∧ j ≤ lines.length ∧
  size (['\n'].intercalate (lines.take j)) ≤ options.maxBytes} k

theorem most_of {lines taken rest : List (List Char)} (heq : lines = taken ++ rest)
 (hlines : taken.length ≤ options.maxLines) (hfits : spent taken ≤ options.maxBytes)
 (hstop : taken.length = options.maxLines ∨ rest = []
  ∨ ∃ line more, rest = line :: more ∧ options.maxBytes < spent (taken ++ [line])) :
 Most options lines taken.length := by
 subst heq
 refine ⟨⟨hlines, by simp, by rwa [take_left, size_intercalate]⟩, ?_⟩
 rintro j ⟨hj, hlen, hsize⟩
 rcases hstop with hstop | rfl | ⟨line, more, rfl, hline⟩
 · omega
 · simpa using hlen
 · by_contra hlt
   have hlength : (taken ++ [line]).length = taken.length + 1 := by simp
   obtain ⟨n, rfl⟩ := Nat.exists_eq_add_of_le (show taken.length + 1 ≤ j by omega)
   rw [size_intercalate, show taken ++ line :: more = (taken ++ [line]) ++ more by simp,
    ← hlength, take_length_add_append] at hsize
   have := spent_le_append (taken ++ [line]) (more.take n)
   omega

theorem exists_fitting (maxBytes : Nat) (lines : List (List Char)) :
 ∃ taken rest, lines = taken ++ rest ∧ spent taken ≤ maxBytes
  ∧ (rest = [] ∨ ∃ line more, rest = line :: more ∧ maxBytes < spent (taken ++ [line])) := by
 induction lines using List.reverseRecOn with
 | nil => exact ⟨[], [], rfl, Nat.zero_le _, inl rfl⟩
 | append_singleton lines line ih =>
  obtain ⟨taken, rest, rfl, hfits, hstop⟩ := ih
  rcases hstop with rfl | ⟨next, more, rfl, hnext⟩
  · by_cases hline : spent (taken ++ [line]) ≤ maxBytes
    · exact ⟨taken ++ [line], [], by simp, hline, inl rfl⟩
    · exact ⟨taken, [line], by simp, hfits, inr ⟨line, [], rfl, by omega⟩⟩
  · exact ⟨taken, next :: (more ++ [line]), by simp, hfits,
     inr ⟨next, more ++ [line], rfl, hnext⟩⟩

/-- The lines at the front that fit into the bytes, and whether they are all. -/
theorem exists_most (options : TruncationOptions) (lines : List (List Char)) :
 ∃ taken rest, lines.take options.maxLines = taken ++ rest ∧ spent taken ≤ options.maxBytes
  ∧ (rest = [] ∨ ∃ line more, rest = line :: more ∧ options.maxBytes < spent (taken ++ [line]))
  ∧ Most options lines taken.length ∧ lines.take taken.length = taken
  ∧ (rest = [] ↔ taken.length = min options.maxLines lines.length) := by
 obtain ⟨taken, rest, heq, hfits, hstop⟩ :=
  exists_fitting options.maxBytes (lines.take options.maxLines)
 have hlines : lines = taken ++ (rest ++ lines.drop options.maxLines) := by
  rw [← append_assoc, ← heq, take_append_drop]
 have hlength : taken.length + rest.length = min options.maxLines lines.length := by
  rw [← length_append, ← heq, length_take]
 refine ⟨taken, rest, heq, hfits, hstop, ?_, ?_, ?_⟩
 · refine most_of hlines (by omega) hfits ?_
   rcases hstop with rfl | ⟨line, more, rfl, hline⟩
   · by_cases hmin : options.maxLines ≤ lines.length
     · left
       rw [length_nil] at hlength
       omega
     · right
       left
       rw [nil_append, drop_eq_nil_iff]
       omega
   · exact inr (inr ⟨line, _, rfl, hline⟩)
 · conv => lhs; rw [hlines]
   exact take_left
 · rw [← length_eq_zero_iff]
   omega

/-! ## The first lines -/

theorem intercalate_concat (lines : List (List Char)) (line : List Char) :
 ['\n'].intercalate (lines ++ [line])
  = ['\n'].intercalate lines ++ (if lines = [] then [] else ['\n']) ++ line := by
 induction lines with
 | nil => simp
 | cons first lines ih =>
  cases lines with
  | nil => simp
  | cons second lines =>
   simp only [cons_append, intercalate_cons_cons] at ih ⊢
   rw [ih]
   simp

def TruncationResult.keep (result : TruncationResult) (kept : List (List Char)) :
 TruncationResult :=
 { result with
   content := ['\n'].intercalate kept, outputLines := kept.length, outputBytes := spent kept }

variable (result : TruncationResult)

theorem headLoop_cons (kept : List (List Char)) (line : List Char)
 (more : List (List Char)) (hfits : spent kept ≤ options.maxBytes) :
 headLoop options (line :: more) (result.keep kept) = if options.maxBytes < spent (kept ++ [line])
   then some { result.keep kept with truncatedBy := some .bytes }
   else headLoop options more (result.keep (kept ++ [line])) := by
 have hseparator : (if (result.keep kept).outputLines > 0 then 1 else 0)
  = (!kept.isEmpty).toNat := by
  cases kept <;> rfl
 have hnewline : (if (!kept.isEmpty).toNat > 0 then ['\n'] else [])
  = if kept = [] then [] else ['\n'] := by
  cases kept <;> rfl
 have hcontent : (result.keep kept).content ++ (if kept = [] then [] else ['\n']) ++ line
  = ['\n'].intercalate (kept ++ [line]) := (intercalate_concat kept line).symm
 have hbytes : (result.keep kept).outputBytes = spent kept := rfl
 have hspent := spent_concat kept line
 rw [headLoop]
 dsimp only
 rw [hbytes, checkedSub_of_le hfits, Option.bind_eq_bind, Option.bind_some, hseparator, hnewline,
  hcontent, size_intercalate]
 by_cases hlong : options.maxBytes < spent (kept ++ [line])
 · rw [if_pos hlong, if_pos (by omega)]
 · rw [if_neg hlong, if_neg (by omega), keep, keep,
    length_append]
   rfl

theorem headLoop_append (kept a b : List (List Char))
 (hfits : spent (kept ++ a) ≤ options.maxBytes) :
 headLoop options (a ++ b) (result.keep kept) = headLoop options b (result.keep (kept ++ a)) := by
 induction a generalizing kept with
 | nil => rw [append_nil, nil_append]
 | cons line a ih =>
  have hsplit : kept ++ line :: a = (kept ++ [line]) ++ a := by simp
  rw [hsplit] at hfits ⊢
  have hline := Nat.le_trans (spent_le_append (kept ++ [line]) a) hfits
  rw [cons_append, headLoop_cons _ _ _ _ (Nat.le_trans (spent_le_append _ _) hline),
   if_neg (by omega), ih _ hfits]

section

variable (h : exceeds content options = true)

include h

theorem truncateHead_exceeds :
 (∃ line, (rows content).head? = some line ∧ options.maxBytes < size line
  ∧ truncateHead content options = some { initial content options with
   truncatedBy := some .bytes, firstLineExceedsLimit := true })
 ∨ ∃ k, Most options (rows content) k
  ∧ (∀ line ∈ (rows content).head?, size line ≤ options.maxBytes)
  ∧ truncateHead content options
   = some { (initial content options).keep ((rows content).take k) with
    truncatedBy := some (if k < min options.maxLines (rows content).length then .bytes
     else .lines) } := by
 obtain ⟨taken, rest, heq, hfits, hstop, hmost, htake, hall⟩ := exists_most options (rows content)
 unfold truncateHead
 have htruncated : (initial content options).truncated = true := h
 dsimp only
 rw [htruncated, if_neg (by simp)]
 by_cases hfirst : (rows content).head?.any (fun line => size line > options.maxBytes) = true
 · rw [if_pos hfirst]
   obtain ⟨line, hline, hlong⟩ := (Option.any_eq_true _ _).mp hfirst
   exact inl ⟨line, hline, by simpa using hlong, rfl⟩
 rw [if_neg hfirst]
 refine inr ⟨taken.length, hmost, ?_, ?_⟩
 · intro line hline
   by_contra hlong
   exact hfirst ((Option.any_eq_true _ _).mpr ⟨line, hline, by simpa using hlong⟩)
 have happend := headLoop_append (initial content options) [] taken rest hfits
 rw [nil_append] at happend
 have hkeep : headLoop options (taken ++ rest) (initial content options)
  = headLoop options rest ((initial content options).keep taken) := happend
 rw [htake, heq, hkeep]
 rcases hstop with rfl | ⟨line, more, rfl, hline⟩
 · rw [headLoop, if_neg (by rw [← hall.mp rfl]; omega)]
   simp [initial, h, keep]
 · have hlt : taken.length < min options.maxLines (rows content).length := by
    have hle : taken.length ≤ min options.maxLines (rows content).length := by
     rw [← length_take, heq, length_append]
     omega
    have := mt hall.mpr (by simp)
    omega
   rw [headLoop_cons _ _ _ _ hfits, if_pos hline, if_pos hlt]

/-! ## The last lines -/

theorem truncateTail_kept {kept : Kept}
 (hkept : keepLines options ((rows content).reverse.take options.maxLines) Kept.start = kept) :
 truncateTail content options = { initial content options with
  content := ['\n'].intercalate kept.lines.reverse
  truncatedBy := if kept.lines.length ≥ options.maxLines
   ∧ kept.outputBytes ≤ options.maxBytes then some .lines else kept.truncatedBy
  outputLines := kept.lines.length, outputBytes := kept.outputBytes
  lastLinePartial := kept.lastLinePartial } := by
 subst hkept
 simp [truncateTail, initial, h, Kept.start]

/-- What `truncate_tail` shows of an output that is cut. The line limit has precedence in
the reason, so a part of a line under a limit of one line counts as cut by lines. -/
theorem truncateTail_shows :
 (∃ line, (rows content).getLast? = some line ∧ options.maxBytes < size line ∧ options.maxLines ≠ 0
  ∧ truncateTail content options = { initial content options with
   content := lastBytes options.maxBytes line
   truncatedBy := some (if options.maxLines = 1 then .lines else .bytes)
   outputLines := 1, outputBytes := size (lastBytes options.maxBytes line)
   lastLinePartial := true })
 ∨ ∃ k, Most options (rows content).reverse k
  ∧ (options.maxLines = 0 ∨ ∀ line ∈ (rows content).getLast?, size line ≤ options.maxBytes)
  ∧ truncateTail content options
   = { (initial content options).keep ((rows content).drop ((rows content).length - k)) with
       truncatedBy := some (if k < min options.maxLines (rows content).length then .bytes
        else .lines) } := by
 obtain ⟨taken, rest, heq, hfits, hstop, hmost, htake, hall⟩ :=
  exists_most options (rows content).reverse
 rw [length_reverse] at hall
 have hlast : (rows content).getLast? = (rows content).reverse.head? := by
  rw [head?_reverse]
 have hfront : options.maxLines ≠ 0 → (rows content).reverse.head? = (taken ++ rest).head? := by
  intro hzero
  rw [← heq, head?_take, if_neg hzero]
 have hshown : taken.reverse = (rows content).drop ((rows content).length - taken.length) := by
  conv => lhs; rw [← htake]
  rw [take_reverse, reverse_reverse]
 -- the last line, where one is kept
 have hkept : taken ≠ [] → ∀ line ∈ (taken ++ rest).head?, size line ≤ options.maxBytes := by
  intro hne line hline
  obtain ⟨first, taken', rfl⟩ := exists_cons_of_ne_nil hne
  obtain rfl : first = line := by simpa using hline
  have := spent_le_append [first] taken'
  simp only [spent, map_cons, map_nil, sum_cons, sum_nil, length_cons, length_nil] at this hfits ⊢
  simp only [cons_append, nil_append, map_cons, sum_cons, length_cons] at this
  omega
 have hkeep := @keepLines_append options taken rest Kept.start rfl hfits
 rw [← heq] at hkeep
 rw [hlast]
 rcases hstop with rfl | ⟨line, more, rfl, hline⟩
 · -- every line within the limit is kept
   refine inr ⟨taken.length, hmost, ?_, ?_⟩
   · by_cases hzero : options.maxLines = 0
     · exact inl hzero
     · rw [hfront hzero]
       by_cases hne : taken = []
       · subst hne
         exact inr (by simp)
       · exact inr (hkept hne)
   · have hmin : ¬ taken.length < min options.maxLines (rows content).length := by
      rw [← hall.mp rfl]
      omega
     rw [truncateTail_kept h hkeep, ← hshown, if_neg hmin]
     simp [initial, Kept.start, keep, spent_reverse, keepLines]
 have hlt : taken.length < min options.maxLines (rows content).length := by
  have hle := congrArg List.length heq
  rw [length_append, length_take, length_reverse, length_cons] at hle
  omega
 by_cases hne : taken = []
 · -- not even the last line fits
   subst hne
   have hlong : options.maxBytes < size line := by simpa [spent] using hline
   have hzero : options.maxLines ≠ 0 := by omega
   refine inl ⟨line, by rw [hfront hzero]; rfl, hlong, hzero, ?_⟩
   have hle := size_lastBytes_le options.maxBytes line
   have hpart : keepLines options ((rows content).reverse.take options.maxLines) Kept.start
    = { lines := [lastBytes options.maxBytes line]
        outputBytes := size (lastBytes options.maxBytes line)
        truncatedBy := some .bytes, lastLinePartial := true } := by
    rw [heq, nil_append, keepLines, if_pos (by simpa [Kept.start] using hlong),
     if_pos (by rfl)]
    rfl
   rw [truncateTail_kept h hpart]
   by_cases hone : options.maxLines = 1
   · simp [hle, hone]
   · simp [hle, hone, show ¬ options.maxLines ≤ 1 by omega]
 have hzero : options.maxLines ≠ 0 := by omega
 refine inr ⟨taken.length, hmost, inr (by rw [hfront hzero]; exact hkept hne), ?_⟩
 have hempty : taken.isEmpty = false := by simpa using hne
 rw [spent_concat, hempty] at hline
 have hcut : keepLines options ((rows content).reverse.take options.maxLines) Kept.start
  = { lines := taken, outputBytes := spent taken, truncatedBy := some .bytes
      lastLinePartial := false } := by
  rw [hkeep, keepLines, Kept.start, nil_append, hempty, if_pos, if_neg]
  · simp
  · dsimp only
    omega
 rw [truncateTail_kept h hcut, ← hshown, if_pos hlt]
 simp [initial, keep, spent_reverse, show ¬ options.maxLines ≤ taken.length by omega]

end

/-! ## What is returned -/

/-- `k` is the most of the last lines that the limits hold, put together with newlines. -/
def MostLast (options : TruncationOptions) (lines : List (List Char)) (k : Nat) : Prop :=
 IsGreatest {j | j ≤ options.maxLines ∧ j ≤ lines.length ∧
  size (['\n'].intercalate (lines.drop (lines.length - j))) ≤ options.maxBytes} k

theorem most_reverse {lines : List (List Char)} {k : Nat} :
 Most options lines.reverse k ↔ MostLast options lines k := by
 have hsize : ∀ j, size (['\n'].intercalate (lines.reverse.take j))
  = size (['\n'].intercalate (lines.drop (lines.length - j))) := by
  intro j
  rw [size_intercalate, size_intercalate, take_reverse, spent_reverse]
 unfold Most MostLast
 simp only [hsize, length_reverse]

/-- `part` is the longest end of a line that takes at most `maxBytes` bytes. -/
def LongestEnd (maxBytes : Nat) (line part : List Char) : Prop :=
 part <:+ line ∧ size part ≤ maxBytes ∧ ∀ other, other <:+ line → size other ≤ maxBytes →
  other <:+ part

theorem longestEnd_lastBytes (maxBytes : Nat) (line : List Char) :
 LongestEnd maxBytes line (lastBytes maxBytes line) := by
 induction line with
 | nil => exact ⟨suffix_refl _, Nat.zero_le _, fun other h _ => h⟩
 | cons c line ih =>
  rw [lastBytes]
  by_cases hfits : size (c :: line) ≤ maxBytes
  · rw [if_pos hfits]
    exact ⟨suffix_refl _, hfits, fun other h _ => h⟩
  · rw [if_neg hfits]
    refine ⟨ih.1.trans (suffix_cons c line), ih.2.1, fun other h hsize => ?_⟩
    rcases suffix_cons_iff.mp h with rfl | h
    · exact absurd hsize hfits
    · exact ih.2.2 other h hsize

structure Shows (result : TruncationResult) (text : List Char) (lines : Nat)
 (reason : TruncatedBy) : Prop where
 content : result.content = text
 outputBytes : result.outputBytes = size text
 outputLines : result.outputLines = lines
 truncatedBy : result.truncatedBy = some reason

def reasonFor (options : TruncationOptions) (lines : List (List Char)) (k : Nat) : TruncatedBy :=
 if k < min options.maxLines lines.length then .bytes else .lines

/-- `truncate_head` of a text that is too long: the most first lines, or none of a text whose
first line alone is too long. -/
def HeadShows (content : List Char) (options : TruncationOptions) (result : TruncationResult) :
 Prop :=
 ((∃ line ∈ (rows content).head?, options.maxBytes < size line)
  ∧ result.firstLineExceedsLimit = true ∧ Shows result [] 0 .bytes)
 ∨ ((∀ line ∈ (rows content).head?, size line ≤ options.maxBytes)
  ∧ result.firstLineExceedsLimit = false
  ∧ ∃ k, Most options (rows content) k ∧ Shows result (['\n'].intercalate ((rows content).take k)) k
    (reasonFor options (rows content) k))

/-- `truncate_tail` of a text that is too long: the most last lines, or under a limit of at
least one line the end of a last line that alone is too long. -/
def TailShows (content : List Char) (options : TruncationOptions) (result : TruncationResult) :
 Prop :=
 (options.maxLines ≠ 0 ∧ (∃ line ∈ (rows content).getLast?, options.maxBytes < size line
   ∧ LongestEnd options.maxBytes line result.content)
  ∧ result.lastLinePartial = true
  ∧ Shows result result.content 1 (if options.maxLines = 1 then .lines else .bytes))
 ∨ ((options.maxLines = 0 ∨ ∀ line ∈ (rows content).getLast?, size line ≤ options.maxBytes)
  ∧ result.lastLinePartial = false
  ∧ ∃ k, MostLast options (rows content) k
   ∧ Shows result (['\n'].intercalate ((rows content).drop ((rows content).length - k))) k
    (reasonFor options (rows content) k))

/-- **Line truncation is exact and maximal.** Both functions run through without a
subtraction that underflows, and of a text that is too long they return the most whole lines
from its front and from its end. -/
theorem truncation_exact (content : List Char) (options : TruncationOptions) :
 ∃ head tail, truncateHead content options = some head ∧ tailResult content options = some tail
  ∧ (head.truncated = true → HeadShows content options head)
  ∧ (tail.truncated = true → TailShows content options tail) := by
 cases h : exceeds content options with
 | false =>
  refine ⟨unchanged (initial content options) content, truncateTail content options,
   ?_, tailResult_eq content options, ?_, ?_⟩
  · simp [truncateHead, initial, h]
  · exact by simp [unchanged, initial, h]
  · exact by simp [h]
 | true =>
  obtain ⟨head, hhead, hshows⟩ : ∃ head, truncateHead content options = some head
   ∧ HeadShows content options head := by
   rcases truncateHead_exceeds h with ⟨line, hline, hlong, hhead⟩ | ⟨k, hmost, hfirst, hhead⟩
   · exact ⟨_, hhead, inl ⟨⟨line, hline, hlong⟩, rfl, rfl, rfl, rfl, rfl⟩⟩
   · refine ⟨_, hhead, inr ⟨hfirst, rfl, k, hmost, rfl, ?_, ?_, rfl⟩⟩
     · exact (size_intercalate _).symm
     · exact length_take_of_le hmost.1.2.1
  refine ⟨head, _, hhead, tailResult_eq content options, fun _ => hshows, fun _ => ?_⟩
  rcases truncateTail_shows h with ⟨line, hline, hlong, hzero, htail⟩ | ⟨k, hmost, hlast, htail⟩
  · rw [htail]
    exact inl ⟨hzero, ⟨line, hline, hlong, longestEnd_lastBytes _ line⟩, rfl, rfl, rfl, rfl, rfl⟩
  · rw [htail]
    refine inr ⟨hlast, rfl, k, most_reverse.mp hmost, rfl, ?_, ?_, rfl⟩
    · exact (size_intercalate _).symm
    · have := hmost.1.2.1
      simp only [length_reverse] at this
      simp only [keep, length_drop]
      omega

/-- Under a limit of no lines nothing is shown of a last line that alone is too long. -/
theorem no_lines_no_end :
 ¬ ∀ (content : List Char) (options : TruncationOptions) (result : TruncationResult),
  tailResult content options = some result → result.truncated = true →
  ∀ line ∈ (rows content).getLast?, options.maxBytes < size line →
   LongestEnd options.maxBytes line result.content := by
 intro h
 have hlongest := h ['a', 'b', 'c'] { maxLines := 0, maxBytes := 1 } _ (tailResult_eq _ _)
  (by decide +kernel) ['a', 'b', 'c'] (by decide +kernel) (by decide +kernel)
 have hshown : (truncateTail ['a', 'b', 'c'] { maxLines := 0, maxBytes := 1 }).content = [] := by
  decide +kernel
 rw [hshown] at hlongest
 exact absurd (hlongest.2.2 ['c'] (by decide) (by decide +kernel)) (by decide)

end Bake.Tools
