import Bake.Lib.Utf8
import Bake.Tools.EditExact

/-!
# Editing a file's bytes

`edit_file` between the read and the write: the bytes as a text, its byte order mark set
aside, its line ends normalised, the edits applied, and all of it undone. For a text whose
line ends are of one kind undoing is exact (`restore_normalize`), so the bytes around the
replaced regions stay as they are. Bytes that are no text do not.
-/

open List Utf8

namespace Bake.Tools

open Search (OccursAt)
open Splice (Region Replaces)

/-- The byte order mark in front of a text, and what follows. -/
def splitBom : List Char → List Char × List Char
 | c :: text => if c = '\uFEFF' then ([c], text) else ([], c :: text)
 | [] => ([], [])

/-- `edit_file` between the read and the write. -/
def editBytes (nfkc : List Char → List Char) (bytes : List UInt8) (edits : List Edit) :
 Except EditError (List UInt8) := do
 let raw := lossy bytes
 let (bom, content) := splitBom raw
 let ending := detectLineEnding content
 let normalized := normalizeToLf content
 let applied ← applyEditsToNormalizedContent nfkc normalized edits
 .ok (encode (bom ++ restoreLineEndings applied.newContent ending))

/-! ## Line ends of one kind -/

/-- No `\r` in the text. -/
def LfOnly (text : List Char) : Prop := '\r' ∉ text

/-- Every `\n` follows a `\r`, and every `\r` is followed by a `\n`. -/
structure CrLfOnly (text : List Char) : Prop where
 before : ∀ front back, text = front ++ '\n' :: back → front.getLast? = some '\r'
 behind : ∀ front back, text = front ++ '\r' :: back → back.head? = some '\n'

theorem replaceCrLf_cons {c : Char} (hc : c ≠ '\r') (text : List Char) :
 replaceCrLf (c :: text) = c :: replaceCrLf text := by
 rw [replaceCrLf]
 intro text' h
 exact fun _ => hc h

theorem normalizeToLf_cons {c : Char} (hc : c ≠ '\r') (text : List Char) :
 normalizeToLf (c :: text) = c :: normalizeToLf text := by
 rw [normalizeToLf, replaceCrLf_cons hc, map_cons, if_neg hc]
 rfl

theorem normalizeToLf_crLf (text : List Char) :
 normalizeToLf ('\r' :: '\n' :: text) = '\n' :: normalizeToLf text := rfl

variable {text : List Char}

theorem normalizeToLf_lfOnly (h : LfOnly text) : normalizeToLf text = text := by
 induction text with
 | nil => rfl
 | cons c text ih =>
  rw [LfOnly, mem_cons, not_or] at h
  rw [normalizeToLf_cons (Ne.symm h.1), ih h.2]

@[simp] theorem restoreLineEndings_nil (ending : LineEnding) : restoreLineEndings [] ending = [] := by
 cases ending <;> rfl

theorem restoreLineEndings_append (a b : List Char) (ending : LineEnding) :
 restoreLineEndings (a ++ b) ending = restoreLineEndings a ending ++ restoreLineEndings b ending := by
 cases ending with
 | lf => rfl
 | crLf => exact flatMap_append

theorem restoreLineEndings_cons (c : Char) (text : List Char) (ending : LineEnding) :
 restoreLineEndings (c :: text) ending
  = restoreLineEndings [c] ending ++ restoreLineEndings text ending :=
 restoreLineEndings_append [c] text ending

theorem restoreLineEndings_open (h : '\n' ∉ text) (ending : LineEnding) :
 restoreLineEndings text ending = text := by
 cases ending with
 | lf => rfl
 | crLf =>
  induction text with
  | nil => rfl
  | cons c text ih =>
   rw [mem_cons, not_or] at h
   rw [restoreLineEndings_cons, ih h.2, restoreLineEndings, flatMap_singleton, if_neg (Ne.symm h.1)]
   rfl

theorem CrLfOnly.restore (h : CrLfOnly text) :
 restoreLineEndings (normalizeToLf text) .crLf = text := by
 induction hn : text.length using Nat.strongRecOn generalizing text with
 | ind n ih =>
  subst hn
  match text with
  | [] => rfl
  | c :: text =>
   by_cases hc : c = '\r'
   · subst hc
     have hhead := h.behind [] text rfl
     match text with
     | [] => simp at hhead
     | d :: text =>
      obtain rfl : d = '\n' := by simpa using hhead
      have hrest : CrLfOnly text := by
       refine ⟨fun front back heq => ?_, fun front back heq => ?_⟩
       · have := h.before ('\r' :: '\n' :: front) back (by rw [heq]; rfl)
         cases front with
         | nil => simp at this
         | cons e front => simpa [getLast?_cons_cons] using this
       · exact h.behind ('\r' :: '\n' :: front) back (by rw [heq]; rfl)
      rw [normalizeToLf_crLf, restoreLineEndings_cons,
       ih _ (by simp only [length_cons]; omega) hrest rfl]
      rfl
   have hlf : c ≠ '\n' := by
    rintro rfl
    exact absurd (h.before [] text rfl) (by simp)
   have hrest : CrLfOnly text := by
    refine ⟨fun front back heq => ?_, fun front back heq => ?_⟩
    · have := h.before (c :: front) back (by rw [heq]; rfl)
      cases front with
      | nil => exact absurd (by simpa using this) hc
      | cons e front => simpa [getLast?_cons_cons] using this
    · exact h.behind (c :: front) back (by rw [heq]; rfl)
   rw [normalizeToLf_cons hc, restoreLineEndings_cons, ih _ (by simp) hrest rfl,
    restoreLineEndings, flatMap_singleton, if_neg hlf]
   rfl

theorem detectLineEnding_lfOnly (h : LfOnly text) : detectLineEnding text = .lf := by
 have hnone : Search.find ['\r', '\n'] text = none := by
  rw [Search.find_eq_none]
  intro i hi
  have hmem : '\r' ∈ text.drop i := hi.2.subset (by simp)
  exact h (mem_of_mem_drop hmem)
 rw [detectLineEnding, hnone]

/-- A text of `\r\n` lines is detected as one, where it has a line end at all. -/
theorem CrLfOnly.detect (h : CrLfOnly text) (hmem : '\n' ∈ text) :
 detectLineEnding text = .crLf := by
 obtain ⟨front, back, htext, hfront⟩ := eq_append_cons_of_mem hmem
 obtain ⟨body, rfl⟩ := getLast?_eq_some_iff.mp (h.before front back htext)
 have hsplit : body ++ ['\r'] ++ '\n' :: back = body ++ ['\r', '\n'] ++ back := by simp
 have hlf : Search.find ['\n'] text = some (body.length + 1) := by
  refine Search.find_eq_some.mpr ⟨?_, fun j hj hoccurs => ?_⟩
  · have := Search.occursAt_append (body ++ ['\r']) ['\n'] back
    rw [append_assoc, singleton_append, length_append] at this
    rw [htext]
    exact this
  · rw [htext] at hoccurs
    exact hfront (hoccurs.subset_front (by simp; omega) (by simp))
 have hcrlf : Search.find ['\r', '\n'] text = some body.length := by
  refine Search.find_eq_some.mpr ⟨?_, fun j hj hoccurs => ?_⟩
  · rw [htext, hsplit]
    exact Search.occursAt_append body ['\r', '\n'] back
  · rw [htext] at hoccurs
    exact hfront (hoccurs.subset_front (by simp; omega) (by simp))
 rw [detectLineEnding, hlf, hcrlf]
 simp

/-- **A text whose line ends are of one kind is restored from its normal form.** -/
theorem restore_normalize (h : LfOnly text ∨ CrLfOnly text) :
 restoreLineEndings (normalizeToLf text) (detectLineEnding text) = text := by
 rcases h with h | h
 · rw [detectLineEnding_lfOnly h, normalizeToLf_lfOnly h]
   rfl
 · by_cases hmem : '\n' ∈ text
   · rw [h.detect hmem, h.restore]
   · have hlf : LfOnly text := by
      intro hcr
      obtain ⟨front, back, rfl, -⟩ := eq_append_cons_of_mem hcr
      have := mem_of_mem_head? (h.behind front back rfl)
      exact hmem (by simp [this])
     rw [detectLineEnding_lfOnly hlf, normalizeToLf_lfOnly hlf]
     rfl

/-! ## The bytes -/

def restoredBytes (ending : LineEnding) (c : Char) : List UInt8 :=
 encode (restoreLineEndings [c] ending)

theorem encode_restore (text : List Char) (ending : LineEnding) :
 encode (restoreLineEndings text ending) = text.flatMap (restoredBytes ending) := by
 induction text with
 | nil => rw [restoreLineEndings_nil]; rfl
 | cons c text ih =>
  rw [restoreLineEndings_cons, encode_append, ih, flatMap_cons]
  rfl

theorem splitBom_eq (raw : List Char) :
 raw = (splitBom raw).1 ++ (splitBom raw).2 ∧ '\n' ∉ (splitBom raw).1 := by
 cases raw with
 | nil => exact ⟨rfl, by simp [splitBom]⟩
 | cons c text =>
  rw [splitBom]
  split
  next hc =>
   refine ⟨rfl, ?_⟩
   subst hc
   show '\n' ∉ ['\uFEFF']
   decide
  · exact ⟨rfl, by simp⟩

/-- A file's text has line ends of one kind. -/
def OneLineEnding (raw : List Char) : Prop := LfOnly (splitBom raw).2 ∨ CrLfOnly (splitBom raw).2

def Edit.bytes (ending : LineEnding) (edit : Edit) : List UInt8 × List UInt8 :=
 (encode (restoreLineEndings (normalizeToLf edit.oldText) ending),
  encode (restoreLineEndings (normalizeToLf edit.newText) ending))

theorem editBytes_replaces {nfkc : List Char → List Char} {raw : List Char} {edits : List Edit}
 {written : List UInt8} (hone : OneLineEnding raw)
 (hverbatim : Verbatim (normalizeToLf (splitBom raw).2) edits)
 (hok : editBytes nfkc (encode raw) edits = .ok written) :
 ∃ regions : List (Region UInt8), Replaces 0 regions (encode raw) written
  ∧ (regions.map fun r => (r.old, r.new)).Perm
   (edits.map (Edit.bytes (detectLineEnding (splitBom raw).2))) := by
 obtain ⟨hraw, hbom⟩ := splitBom_eq raw
 generalize hending : detectLineEnding (splitBom raw).2 = ending
 generalize hnormal : normalizeToLf (splitBom raw).2 = normal at hverbatim
 have hrestored := restore_normalize hone
 rw [hending, hnormal] at hrestored
 rw [editBytes, lossy_encode] at hok
 dsimp only at hok
 rw [hending, hnormal] at hok
 obtain ⟨applied, happlied, hok⟩ := Except.bind_ok hok
 injection hok with hok
 obtain ⟨-, -, -, regions, hregions, hnew⟩ := (apply_verbatim hverbatim).mp happlied
 have hreplaces := hregions.replaces hverbatim
 rw [← hnew] at hreplaces
 have hbytes : ∀ text, encode ((splitBom raw).1 ++ restoreLineEndings text ending)
  = ((splitBom raw).1 ++ text).flatMap (restoredBytes ending) := by
  intro text
  rw [← encode_restore, restoreLineEndings_append, restoreLineEndings_open hbom]
 have hfile : encode raw = ((splitBom raw).1 ++ normal).flatMap (restoredBytes ending) := by
  rw [← hbytes, hrestored, ← hraw]
 rw [hbytes] at hok
 refine ⟨_, by rw [hfile, ← hok]; exact (hreplaces.front (splitBom raw).1).flatMap _, ?_⟩
 rw [map_map, map_map]
 have himage : ((fun r : Region UInt8 => (r.old, r.new))
  ∘ Region.image (restoredBytes ending) ((splitBom raw).1 ++ normal)
  ∘ Region.shift (splitBom raw).1.length)
  = fun r : Region Char => (r.old.flatMap (restoredBytes ending),
   r.new.flatMap (restoredBytes ending)) := rfl
 rw [Function.comp_assoc] at *
 rw [himage]
 refine (hregions.perm.map _).trans ?_
 rw [map_map]
 refine List.Perm.of_eq (map_congr_left fun edit _ => ?_)
 simp only [Function.comp_apply, Edit.region, Edit.bytes, encode_restore]

/-- **Exact edits are one simultaneous substitution.** Where the old texts all stand in the
content and the edits are applied, their first places are regions in order that share
nothing, the new content is the content with exactly these replaced, and the same edits in
any order give the same. In a file that is UTF-8 and whose line ends are of one kind, no
byte outside the replaced regions changes. -/
theorem exact_edits (nfkc : List Char → List Char) (edits : List Edit) :
 (∀ content applied, Verbatim content edits →
  applyEditsToNormalizedContent nfkc content edits = .ok applied →
  (∃ regions, regions.Perm (edits.map (Edit.region content))
   ∧ (∀ r ∈ regions, OccursAt r.old content r.start ∧ r.old ≠ [])
   ∧ (regions.Pairwise fun a b => a.start + a.old.length ≤ b.start)
   ∧ Replaces 0 regions content applied.newContent)
  ∧ ∀ edits', edits'.Perm edits →
   ∃ applied', applyEditsToNormalizedContent nfkc content edits' = .ok applied'
    ∧ applied'.newContent = applied.newContent)
 ∧ ∀ raw written, OneLineEnding raw → Verbatim (normalizeToLf (splitBom raw).2) edits →
  editBytes nfkc (encode raw) edits = .ok written →
  ∃ regions : List (Region UInt8), Replaces 0 regions (encode raw) written
   ∧ (regions.map fun r => (r.old, r.new)).Perm
    (edits.map (Edit.bytes (detectLineEnding (splitBom raw).2))) := by
 refine ⟨fun content applied hverbatim hok => ⟨?_, fun edits' hperm => ?_⟩,
  fun raw written hone hverbatim hok => editBytes_replaces hone hverbatim hok⟩
 · obtain ⟨-, -, -, regions, hregions, hnew⟩ := (apply_verbatim hverbatim).mp hok
   have hreplaces := hregions.replaces hverbatim
   rw [← hnew] at hreplaces
   refine ⟨regions, hregions.perm, fun r hr => ⟨?_, hregions.nonempty r hr⟩,
    hregions.ordered.pairwise, hreplaces⟩
   obtain ⟨edit, hedit, rfl⟩ := mem_map.mp (hregions.perm.mem_iff.mp hr)
   obtain ⟨i, hi⟩ := hverbatim edit hedit
   obtain ⟨index, hindex, hoccurs⟩ := region_find hi
   rw [Edit.region, hindex]
   exact hoccurs
 · exact ⟨applied, apply_perm hverbatim hperm hok, rfl⟩

/-- A file that is no UTF-8 is read with U+FFFD in place of the bytes that are none, and so
written: the byte in front of the region does not stay. -/
theorem exact_edits_lossy : ∃ bytes written : List UInt8, ∃ edits : List Edit,
  OneLineEnding (lossy bytes) ∧ Verbatim (normalizeToLf (splitBom (lossy bytes)).2) edits
   ∧ editBytes id bytes edits = .ok written
   ∧ ¬ ∃ regions : List (Region UInt8), Replaces 0 regions bytes written
    ∧ (regions.map fun r => (r.old, r.new)).Perm
     (edits.map (Edit.bytes (detectLineEnding (splitBom (lossy bytes)).2))) := by
 have hread : lossy [0xFF, 0x61] = ['\uFFFD', 'a'] := by
  simp [lossy_cons, lossyStep, replacement]
 have hwritten : editBytes id [0xFF, 0x61] [{ oldText := ['a'], newText := ['b'] }]
  = .ok [0xEF, 0xBF, 0xBD, 0x62] := by
  rw [editBytes, hread]
  decide +kernel
 refine ⟨[0xFF, 0x61], [0xEF, 0xBF, 0xBD, 0x62], [{ oldText := ['a'], newText := ['b'] }],
  ?_, ?_, hwritten, ?_⟩
 · rw [hread]
   exact Or.inl (by unfold LfOnly; decide +kernel)
 · rw [hread]
   intro edit hedit
   obtain rfl := mem_singleton.mp hedit
   refine ⟨1, ?_⟩
   unfold OccursAt
   decide +kernel
 · rintro ⟨regions, hreplaces, hperm⟩
   rw [hread] at hperm
   have hbytes : List.map (Edit.bytes (detectLineEnding (splitBom ['\uFFFD', 'a']).2))
    [{ oldText := ['a'], newText := ['b'] }] = [([0x61], [0x62])] := by decide +kernel
   rw [hbytes, perm_singleton] at hperm
   obtain ⟨r, rs, rfl, hr, hrs⟩ := map_eq_cons_iff.mp hperm
   obtain rfl := map_eq_nil_iff.mp hrs
   injection hr with hold hnew
   -- two bytes cannot become four
   have hlength := hreplaces.length
   simp [hold, hnew] at hlength

end Bake.Tools
