import Bake.Session.Durable
import Mathlib.Data.List.TakeWhile

/-!
# A crash never costs a line

A writer appends lines; a crash cuts an append after any of its bytes; a later
writer opens the file, with or without putting the missing newline. Whatever the
history, what a reader finds is what was there, and behind it, in order, the
lines of exactly those appends whose JSON reached the file whole.

The argument is about lines. Every append starts on a line of its own, so what
was there keeps its lines, and all the append adds is a line that is the entry,
a line that is the beginning of one, or nothing. The beginning of one is no JSON.
-/

open List Utf8

namespace Bake.Session

open Bake.Json Lines

/-! ## What a line reads as -/

theorem jsTrim_ne_nil {c : Char} (hc : isJsWhitespace c = false) (t : List Char) :
 jsTrim (c :: t) ≠ [] := by
 unfold jsTrim
 rw [dropWhile_cons_of_neg (by simp [hc])]
 intro h
 rw [reverse_eq_nil_iff, dropWhile_eq_nil_iff] at h
 have := h c (mem_reverse.mpr (mem_cons_self ..))
 simp [hc] at this

variable {text : List Char}

theorem parseLine_object (h : IsValue text) (hhead : text.head? = some '{') :
 ∃ object verbatim, parseLine text = some (.object object verbatim) := by
 obtain ⟨t, rfl⟩ : ∃ t, text = '{' :: t := ⟨_, eq_cons_of_mem_head? hhead⟩
 have hjson : IsJson ('{' :: t) := ⟨[], _, [], .nil, h, .nil, by simp⟩
 obtain ⟨⟨v, n⟩, hp⟩ := Option.isSome_iff_exists.mp (parse_complete hjson 0)
 obtain ⟨m, rfl⟩ := (parse_sound hp).2.2 rfl (by rw [skipWhitespace_cons (by decide)]; rfl)
 refine ⟨m, if n.isEmpty then none else some n, ?_⟩
 rw [parseLine, if_neg (jsTrim_ne_nil (by decide) t), parseJsonLine, hp]
 rfl

theorem parseLine_none (h : ¬IsJson text) : parseLine text = none := by
 have hp : parseAtDepthWithNode text 0 = none := by
  rw [← Option.not_isSome_iff_eq_none, parse_isSome_iff]
  exact h
 unfold parseLine
 split
 · rfl
 · rw [parseJsonLine, hp]
   rfl

/-- **An object's text cut after any of its bytes is skipped**, also when the cut
falls into a character. -/
theorem parseLine_torn (h : IsValue text) (hhead : text.head? = some '{')
 {n : Nat} (hn : n < (encode text).length) :
 parseLine (lossy ((encode text).take n)) = none := by
 obtain ⟨t, rfl⟩ : ∃ t, text = '{' :: t := ⟨_, eq_cons_of_mem_head? hhead⟩
 cases n with
 | zero =>
  rw [take_zero, lossy_nil]
  rfl
 | succ n =>
  have hbrace : encode ['{'] = [0x7B] := by decide
  have henc : encode ('{' :: t) = encode ['{'] ++ encode t := encode_append ['{'] t
  have htake : (encode ('{' :: t)).take (n + 1) = encode ['{'] ++ (encode t).take n := by
   rw [henc, hbrace]
   rfl
  have hlen : n < (encode t).length := by
   rw [henc, hbrace] at hn
   simpa using hn
  obtain ⟨k, hk, hlt⟩ := lossy_take t n
  have hklt := hlt hlen
  rw [htake, lossy_encode_append]
  -- the characters before the cut are an object cut short
  have hcut : ∀ r : List Char, (∀ c ∈ r, Neutral c ∧ c ≠ '\\') →
   ¬IsJson (('{' :: t.take k) ++ r) := by
   intro r hr
   refine cut_not_json (k := .object) h hhead ?_ (by simp) ?_ hr
   · rw [← take_succ_cons]
     exact take_prefix _ _
   · intro heq
     have := congrArg List.length heq
     simp only [length_cons, length_take] at this
     omega
  rcases hk with hk | ⟨-, hk⟩
  · have := hcut [] (by simp)
    rw [append_nil] at this
    rw [hk]
    exact parseLine_none this
  · have := hcut [replacement] (by simp [replacement, Neutral])
    rw [hk]
    exact parseLine_none this

/-! ## One append -/

theorem parsedLines_append (file rest : Bytes) :
 parsedLines (file ++ (separator file ++ rest)) = parsedLines file ++ parsedLines rest := by
 rw [parsedLines, split_append, filterMap_append]
 rfl

theorem newline_not_mem (h : '\n' ∉ text) : newline ∉ encode text :=
 fun hn => h (mem_encode_ascii (by decide) hn)

theorem parsedLines_take (h : IsValue text) (hhead : text.head? = some '{')
 (hline : '\n' ∉ text) (n : Nat) :
 parsedLines ((lineBytes text).take n)
  = if (encode text).length ≤ n then (parseLine text).toList else [] := by
 have hnl := newline_not_mem hline
 have hne : encode text ≠ [] := by
  intro hnil
  obtain ⟨t, rfl⟩ : ∃ t, text = '{' :: t := ⟨_, eq_cons_of_mem_head? hhead⟩
  rw [encode_cons] at hnil
  exact String.utf8EncodeChar_ne_nil (append_eq_nil_iff.mp hnil).1
 have hwhole : ([encode text].filterMap fun line => parseLine (lossy line))
  = (parseLine text).toList := by
  simp only [filterMap_cons, filterMap_nil, lossy_encode]
  cases parseLine text <;> rfl
 unfold lineBytes parsedLines
 rcases Nat.lt_trichotomy n (encode text).length with hn | hn | hn
 · rw [if_neg (Nat.not_le.mpr hn), take_append_of_le_length (Nat.le_of_lt hn)]
   rcases Nat.eq_zero_or_pos n with rfl | hpos
   · simp
   · have htake : (encode text).take n ≠ [] := by
      intro hnil
      rcases take_eq_nil_iff.mp hnil with h0 | h0
      · omega
      · exact hne h0
     rw [split_unterminated (fun hm => hnl (mem_of_mem_take hm)) htake]
     simp [parseLine_torn h hhead hn]
 · rw [if_pos (Nat.le_of_eq hn.symm), hn, take_left, split_unterminated hnl hne]
   exact hwhole
 · rw [if_pos (Nat.le_of_lt hn), take_of_length_le (by rw [length_append]; exact hn), split_line hnl]
   exact hwhole

/-! ## Histories -/

/-- A writer's action: an append of a line, cut by a crash after `cut` bytes or
completed, and then the file opened again, each time by a writer who repairs it
or by a reader. -/
structure Action where
 line : FileEntry
 cut : Option Nat
 reopens : List Repair

namespace Action

def out (a : Action) (file : Bytes) : Bytes := appendOut file (lineBytes a.line.toLine)

def written (a : Action) (file : Bytes) : Bytes :=
 match a.cut with
 | none => a.out file
 | some n => (a.out file).take n

def reaches (a : Action) (file : Bytes) : Bool :=
 match a.cut with
 | none => true
 | some n => (separator file).length + (encode a.line.toLine).length ≤ n

end Action

/-- The file after it is opened. -/
def reopen (file : Bytes) (repair : Repair) : Bytes := ((loadObjects (some file) repair).2).getD file

def act (file : Bytes) (a : Action) : Bytes := a.reopens.foldl reopen (file ++ a.written file)

def history (file : Bytes) (actions : List Action) : Bytes := actions.foldl act file

/-- The lines whose JSON reaches the file, in the order they are written. -/
def reached : Bytes → List Action → List FileEntry
 | _, [] => []
 | file, a :: rest =>
  if a.reaches file then a.line :: reached (act file a) rest else reached (act file a) rest

variable (file : Bytes)

theorem parsedLines_reopen (repair : Repair) :
 parsedLines (reopen file repair) = parsedLines file := by
 unfold reopen loadObjects
 dsimp only
 split
 next h =>
  show parsedLines (file ++ [newline]) = _
  rw [parsedLines, split_close h.2.1]
  rfl
 · rfl

theorem parsedLines_reopens (reopens : List Repair) :
 parsedLines (reopens.foldl reopen file) = parsedLines file := by
 induction reopens generalizing file with
 | nil => rfl
 | cons r rs ih => rw [foldl_cons, ih, parsedLines_reopen]

/-- One action adds the line it appends, if its JSON reaches the file, and
nothing else. -/
theorem parsedLines_act {a : Action} (h : a.line.LineRead) :
 parsedLines (act file a) = parsedLines file
  ++ if a.reaches file then (parseLine a.line.toLine).toList else [] := by
 obtain ⟨hv, hhead, hline⟩ := FileEntry.toLine_written h
 have hwhole := parsedLines_take hv hhead hline (lineBytes a.line.toLine).length
 rw [take_length, if_pos (by simp [lineBytes])] at hwhole
 rw [act, parsedLines_reopens]
 unfold Action.written Action.reaches Action.out appendOut
 cases a.cut with
 | none =>
  rw [parsedLines_append, hwhole]
  simp
 | some n =>
  simp only [decide_eq_true_eq]
  by_cases hn : n < (separator file).length
  · -- cut before the separating newline
    have h0 : n = 0 := by
     unfold separator at hn
     split at hn
     · simpa using hn
     · simp at hn
    subst h0
    rw [take_zero, append_nil, if_neg (by omega), append_nil]
  · obtain ⟨m, rfl⟩ := Nat.exists_eq_add_of_le (Nat.le_of_not_lt hn)
    rw [take_length_add_append, parsedLines_append, parsedLines_take hv hhead hline]
    simp only [Nat.add_le_add_iff_left]

variable {actions : List Action}

theorem parsedLines_history (h : ∀ a ∈ actions, a.line.LineRead) :
 parsedLines (history file actions) = parsedLines file
  ++ (reached file actions).filterMap fun line => parseLine line.toLine := by
 induction actions generalizing file with
 | nil => simp [history, reached]
 | cons a rest ih =>
  have ha := parsedLines_act file (h a (mem_cons_self ..))
  have hrest := ih (act file a) fun b hb => h b (mem_cons_of_mem _ hb)
  rw [history] at hrest ⊢
  rw [foldl_cons, hrest, ha, append_assoc, reached]
  split
  · rw [filterMap_cons]
    cases parseLine a.line.toLine <;> rfl
  · rw [nil_append]

def isHeaderLine (line : Bytes) : Bool :=
 match parseLine (lossy line) with
 | some (.object object _) => isValidHeader object
 | _ => false

def ReadsAs (line : FileEntry) (read : Line) : Prop :=
 parseLine line.toLine = some (.object read.1 read.2)

theorem exists_readsAs (lines : List FileEntry) (h : ∀ line ∈ lines, line.LineRead) :
 ∃ reads : List Line, List.Forall₂ ReadsAs lines reads
  ∧ (lines.filterMap fun line => parseLine line.toLine).filterMap ParsedLine.object? = reads := by
 induction lines with
 | nil => exact ⟨[], .nil, rfl⟩
 | cons line lines ih =>
  obtain ⟨reads, hreads, heq⟩ := ih fun l hl => h l (mem_cons_of_mem _ hl)
  obtain ⟨hv, hhead, -⟩ := FileEntry.toLine_written (h line (mem_cons_self ..))
  obtain ⟨object, verbatim, hp⟩ := parseLine_object hv hhead
  refine ⟨(object, verbatim) :: reads, .cons hp hreads, ?_⟩
  rw [filterMap_cons, hp]
  dsimp only
  rw [filterMap_cons, heq]
  rfl

theorem firstIsHeader_of_line {file line : Bytes} {lines : List Bytes}
 (hsplit : split file = line :: lines) (hline : isHeaderLine line) :
 ∃ object verbatim rest, isValidHeader object
  ∧ parsedLines file = .object object verbatim :: rest := by
 unfold isHeaderLine at hline
 split at hline
 next object verbatim hp =>
  refine ⟨object, verbatim, lines.filterMap fun l => parseLine (lossy l), hline, ?_⟩
  rw [parsedLines, hsplit, filterMap_cons, hp]
 · simp at hline

theorem reached_subset {file : Bytes} :
  ∀ line ∈ reached file actions, ∃ a ∈ actions, a.line = line := by
 induction actions generalizing file with
 | nil => simp [reached]
 | cons a rest ih =>
  intro line hline
  rw [reached] at hline
  have hrest : line ∈ reached (act file a) rest → ∃ b ∈ a :: rest, b.line = line := by
   intro h
   obtain ⟨b, hb, hbl⟩ := ih line h
   exact ⟨b, mem_cons_of_mem _ hb, hbl⟩
  split at hline
  · rcases mem_cons.mp hline with rfl | hline
    · exact ⟨a, mem_cons_self .., rfl⟩
    · exact hrest hline
  · exact hrest hline

/--
**Crash-append safety.** Behind a valid header line, after any history of appends
completed or cut after any of their bytes, with the file opened again any number
of times, the file loads as the header, what the file held, and the lines whose
JSON reached the file whole, in the order they were written.
-/
theorem loadObjects_history {file : Bytes} {actions : List Action}
 (hheader : (split file).head?.any isHeaderLine)
 (hlines : ∀ a ∈ actions, a.line.LineRead) (repair : Repair) :
 ∃ header before after, isValidHeader header.1
  ∧ (loadObjects (some file) repair).1 = header :: before
  ∧ List.Forall₂ ReadsAs (reached file actions) after
  ∧ (loadObjects (some (history file actions)) repair).1 = header :: before ++ after := by
 obtain ⟨line, hhead, hline⟩ := (Option.any_eq_true ..).mp hheader
 obtain ⟨lines, hsplit⟩ : ∃ lines, split file = line :: lines := ⟨_, eq_cons_of_mem_head? hhead⟩
 obtain ⟨object, verbatim, rest, hvalid, hparsed⟩ := firstIsHeader_of_line hsplit hline
 obtain ⟨after, hafter, heq⟩ := exists_readsAs (reached file actions) fun l hl => by
  obtain ⟨a, ha, rfl⟩ := reached_subset l hl
  exact hlines a ha
 have hload : ∀ f : Bytes, (loadObjects (some f) repair).1 = objects f := by
  intro f
  unfold loadObjects
  dsimp only
  split <;> rfl
 have hobjects : ∀ f more, parsedLines f = .object object verbatim :: more →
  objects f = (object, verbatim) :: more.filterMap ParsedLine.object? := by
  intro f more hf
  have : firstIsHeader f := by
   rw [firstIsHeader, hf]
   exact hvalid
  rw [objects, if_pos this, hf, filterMap_cons]
  rfl
 have hhist := parsedLines_history file hlines
 rw [hparsed, cons_append] at hhist
 refine ⟨(object, verbatim), rest.filterMap ParsedLine.object?, after, hvalid, ?_, hafter, ?_⟩
 · rw [hload, hobjects file rest hparsed]
 · rw [hload, hobjects _ _ hhist, filterMap_append, heq]
   rfl

/-- A header, an append cut inside a character, two openings, one completed append. -/
theorem loadObjects_history_torn : ∃ header before after, isValidHeader header.1
  ∧ (loadObjects (some (lineBytes (SessionHeader.new "s" "t" "/w" none).toLine)) .never).1
   = header :: before
  ∧ List.Forall₂ ReadsAs
   (reached (lineBytes (SessionHeader.new "s" "t" "/w" none).toLine)
    [⟨.entry { id := "é", raw := [("id", .string "é")] }, some 8, [.never, .held]⟩,
     ⟨.entry { id := "b", raw := [("id", .string "b")] }, none, []⟩]) after
  ∧ (loadObjects (some (history (lineBytes (SessionHeader.new "s" "t" "/w" none).toLine)
   [⟨.entry { id := "é", raw := [("id", .string "é")] }, some 8, [.never, .held]⟩,
    ⟨.entry { id := "b", raw := [("id", .string "b")] }, none, []⟩])) .never).1
   = header :: before ++ after :=
 loadObjects_history (by decide +kernel)
  (by
   intro a ha
   simp only [mem_cons, not_mem_nil, or_false] at ha
   rcases ha with rfl | rfl <;> exact fun node h => absurd h (by simp [FileEntry.verbatim])) .never

end Bake.Session
