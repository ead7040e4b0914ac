import Bake.Tools.EditUnique

/-!
# The normalised view

What NFKC is taken to be, and what it makes of the view: the view is its own view
(`Nfkc.view_again`), and it is the content line by line, so that it has fewer lines only where
the last one ends without a line feed and has nothing in it but blanks (`Nfkc.lines_eq`).
-/

open List TrimLines

namespace Bake.Tools

/-- NFKC, as far as edits need it. -/
structure Nfkc (nfkc : List Char → List Char) : Prop where
 idempotent : ∀ text, nfkc (nfkc text) = nfkc text
 empty : nfkc [] = []
 /-- Nothing is composed over a line feed. -/
 lineFeed : ∀ a b, nfkc (a ++ '\n' :: b) = nfkc a ++ '\n' :: nfkc b
 /-- No line feed is made. -/
 line : ∀ a, '\n' ∉ a → '\n' ∉ nfkc a
 front : ∀ a b, nfkc (a ++ b) = a ++ b → nfkc a = a
 /-- ASCII quotes, hyphens and spaces leave a text in NFKC. -/
 folded : ∀ text, nfkc text = text → nfkc (text.map foldChar) = text.map foldChar

/-! ## Folding -/

variable (c : Char)

theorem foldChar_eq : foldChar c = c ∨ (foldChar c ∈ ['\'', '"', '-'] ∧ isJsWhitespace c = false)
  ∨ (foldChar c = ' ' ∧ isJsWhitespace c = true) := by
 rw [foldChar]
 split
 · refine Or.inr (Or.inl ⟨by simp, ?_⟩)
   simp [isJsWhitespace]
   omega
 split
 · refine Or.inr (Or.inl ⟨by simp, ?_⟩)
   simp [isJsWhitespace]
   omega
 · split
   · refine Or.inr (Or.inl ⟨by simp, ?_⟩)
     simp [isJsWhitespace]
     omega
   · split
     · refine Or.inr (Or.inr ⟨rfl, ?_⟩)
       simp [isJsWhitespace]
       omega
     · exact Or.inl rfl

theorem isJsWhitespace_foldChar : isJsWhitespace (foldChar c) = isJsWhitespace c := by
 rcases foldChar_eq c with h | ⟨h, hc⟩ | ⟨h, hc⟩
 · rw [h]
 · rw [hc]
   simp only [mem_cons, not_mem_nil, or_false] at h
   rcases h with h | h | h <;> rw [h] <;> decide
 · rw [h, hc]
   decide

theorem foldChar_lineFeed : foldChar c = '\n' ↔ c = '\n' := by
 constructor
 · intro hline
   rcases foldChar_eq c with h | ⟨h, -⟩ | ⟨h, -⟩
   · rw [← h, hline]
   · rw [hline] at h
     exact absurd h (by decide)
   · rw [hline] at h
     exact absurd h (by decide)
 · rintro rfl
   decide

theorem foldChar_foldChar : foldChar (foldChar c) = foldChar c := by
 rcases foldChar_eq c with h | ⟨h, -⟩ | ⟨h, -⟩
 · rw [h, h]
 · simp only [mem_cons, not_mem_nil, or_false] at h
   rcases h with h | h | h <;> rw [h] <;> decide
 · rw [h]
   decide

/-! ## The view -/

variable {nfkc : List Char → List Char}

theorem lineFeed_cancel {a a' b b' : List Char} (ha : '\n' ∉ a) (ha' : '\n' ∉ a')
 (h : a ++ '\n' :: b = a' ++ '\n' :: b') : a = a' ∧ b = b' := by
 have hsplit := congrArg (List.splitOn '\n') h
 rw [splitOn_append_cons_self_of_not_mem ha, splitOn_append_cons_self_of_not_mem ha'] at hsplit
 injection hsplit with hfirst
 subst hfirst
 have hrest := append_cancel_left h
 injection hrest with _ hrest
 exact ⟨rfl, hrest⟩

theorem Nfkc.trim (hn : Nfkc nfkc) {text : List Char} (h : nfkc text = text) :
 nfkc (trim isJsWhitespace '\n' text) = trim isJsWhitespace '\n' text := by
 induction hlen : text.length using Nat.strongRecOn generalizing text with
 | ind n ih =>
  have hkept : ∀ body, nfkc body = body →
   nfkc (body.rdropWhile isJsWhitespace) = body.rdropWhile isJsWhitespace := by
   intro body hbody
   obtain ⟨rest, hrest⟩ := rdropWhile_prefix isJsWhitespace body
   exact hn.front _ rest (by rw [hrest, hbody])
  rcases WholeLines.cases_line '\n' text with hopen | ⟨body, rest, hbody, rfl⟩
  · rw [trim_open hopen]
    exact hkept text h
  · rw [hn.lineFeed] at h
    obtain ⟨hfront, hback⟩ := lineFeed_cancel (hn.line body hbody) hbody h
    rw [trim_line hbody, hn.lineFeed, hkept body hfront,
     ih rest.length (by simp at hlen; omega) hback rfl]

theorem Nfkc.view_again (hn : Nfkc nfkc) (text : List Char) :
 normalizeForFuzzyMatch nfkc (normalizeForFuzzyMatch nfkc text)
  = normalizeForFuzzyMatch nfkc text := by
 have hnfkc := hn.folded _ (hn.trim (hn.idempotent text))
 rw [normalizeForFuzzyMatch_eq, normalizeForFuzzyMatch_eq, hnfkc,
  trim_map isJsWhitespace_foldChar foldChar_lineFeed, trim_trim,
  map_map]
 exact map_congr_left fun c _ => foldChar_foldChar c

variable {body : List Char}

theorem Nfkc.view_line (hn : Nfkc nfkc) (hbody : '\n' ∉ body) (rest : List Char) :
 normalizeForFuzzyMatch nfkc (body ++ '\n' :: rest)
  = normalizeForFuzzyMatch nfkc body ++ '\n' :: normalizeForFuzzyMatch nfkc rest := by
 have hline := hn.line body hbody
 rw [normalizeForFuzzyMatch_eq, normalizeForFuzzyMatch_eq, normalizeForFuzzyMatch_eq, hn.lineFeed,
  trim_line hline, trim_open hline, map_append, map_cons]
 rfl

theorem Nfkc.view_open (hn : Nfkc nfkc) (hbody : '\n' ∉ body) :
 '\n' ∉ normalizeForFuzzyMatch nfkc body := by
 have hline := hn.line body hbody
 rw [normalizeForFuzzyMatch_eq, trim_open hline]
 rintro hmem
 obtain ⟨c, hc, hfold⟩ := mem_map.mp hmem
 rw [foldChar_lineFeed] at hfold
 exact hline (hfold ▸ ( rdropWhile_prefix isJsWhitespace _).subset hc)

theorem Nfkc.view_nil (hn : Nfkc nfkc) : normalizeForFuzzyMatch nfkc [] = [] := by
 rw [normalizeForFuzzyMatch_eq, hn.empty]
 rfl

def lastLine (text : List Char) : List Char := (text.splitOn '\n').getLastD []

def EndsBlank (nfkc : List Char → List Char) (text : List Char) : Prop :=
 lastLine text ≠ [] ∧ normalizeForFuzzyMatch nfkc (lastLine text) = []

theorem lastLine_line (hbody : '\n' ∉ body) (rest : List Char) :
 lastLine (body ++ '\n' :: rest) = lastLine rest := by
 rw [lastLine, splitOn_append_cons_self_of_not_mem hbody, lastLine]
 cases h : rest.splitOn '\n' with
 | nil => exact absurd h (splitOn_ne_nil _ _)
 | cons line lines => simp

theorem lastLine_open (hbody : '\n' ∉ body) : lastLine body = body := by
 rw [lastLine, splitOn_eq_singleton hbody]
 rfl

/-- **The view has as many lines as the text**, unless the text ends blank. -/
theorem Nfkc.lines_eq (hn : Nfkc nfkc) (text : List Char) : (splitLinesWithEndings text).length
  = (splitLinesWithEndings (normalizeForFuzzyMatch nfkc text)).length
  ↔ ¬ EndsBlank nfkc text := by
 induction hlen : text.length using Nat.strongRecOn generalizing text with
 | ind n ih =>
  rcases WholeLines.cases_line '\n' text with hopen | ⟨body, rest, hbody, rfl⟩
  · rw [EndsBlank, lastLine_open hopen, splitLinesWithEndings, splitLinesWithEndings,
     WholeLines.split_open hopen, WholeLines.split_open (hn.view_open hopen)]
    by_cases htext : text = []
    · simp [htext, hn.view_nil]
    · by_cases hview : normalizeForFuzzyMatch nfkc text = []
      all_goals simp [htext, hview]
  · have hrest := ih rest.length (by simp at hlen; omega) rest rfl
    rw [splitLinesWithEndings, splitLinesWithEndings] at hrest
    rw [EndsBlank, lastLine_line hbody, ← EndsBlank, hn.view_line hbody, splitLinesWithEndings,
     splitLinesWithEndings, WholeLines.split_line hbody,
     WholeLines.split_line (hn.view_open hbody), length_cons, length_cons, ← hrest]
    omega

end Bake.Tools
