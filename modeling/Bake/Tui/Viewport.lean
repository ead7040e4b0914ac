import Bake.Tui.Moves

/-!
# The viewport is a window

What is on screen is a stretch of the flat list of lines from the offset on, behind every
resize and for every run: resizing measures what is not known any more and keeps the top in
range, and replaced rows take their heights with them.
-/

open List Option

namespace Bake.Tui

open Blocks (flat Within Le)
open Transcript.Moves
open Presenter (blocks counts counts_key counts_prefix length_counts)

variable {Row Line : Type}

namespace Transcript

variable {p : Presenter Row Line} {t : Transcript Row}

/-! ## The lines on screen -/

theorem lines_eq (t : Transcript Row) (index : Nat) :
 t.lines p index = (p.blocks t.rows t.width t.look)[index]? :=
 p.present_eq ..

theorem pushLines_spec (row limit : Nat) (lines : List (Line × Nat)) (out : List (Anchor × Line))
 (hout : out.length ≤ limit) :
 (pushLines row limit lines out).2.map Prod.snd
  = out.map Prod.snd ++ (lines.map Prod.fst).take (limit - out.length)
  ∧ ((pushLines row limit lines out).1 = true ↔ limit < out.length + lines.length) := by
 induction lines generalizing out with
 | nil => exact ⟨by simp [pushLines], by simp [pushLines]; omega⟩
 | cons line rest ih =>
  obtain ⟨content, at'⟩ := line
  rw [pushLines]
  by_cases hfull : out.length = limit
  · rw [if_pos hfull, hfull, Nat.sub_self, take_zero, append_nil]
    exact ⟨rfl, by simp⟩
  · rw [if_neg hfull]
    obtain ⟨k, hk⟩ : ∃ k, limit - out.length = k + 1 := ⟨limit - out.length - 1, by omega⟩
    have hrec := ih (out ++ [(⟨row, at'⟩, content)]) (by
     rw [length_append, length_singleton]
     omega)
    rw [length_append, length_singleton, map_append, append_assoc] at hrec
    refine ⟨?_, hrec.2.trans (by rw [length_cons]; omega)⟩
    rw [hrec.1, hk, show limit - (out.length + 1) = k by omega]
    rfl

def restFrom (p : Presenter Row Line) (t : Transcript Row) (row skip : Nat) : List Line :=
 (((p.blocks t.rows t.width t.look)[row]?).getD []).drop skip
  ++ ((p.blocks t.rows t.width t.look).drop (row + 1)).flatten

theorem restFrom_zero (row : Nat) :
 t.restFrom p row 0 = ((p.blocks t.rows t.width t.look).drop row).flatten := by
 rw [restFrom, drop_zero]
 rcases Nat.lt_or_ge row (p.blocks t.rows t.width t.look).length with h | h
 · rw [getElem?_eq_getElem h, getD_some, drop_eq_getElem_cons h, flatten_cons]
 · rw [getElem?_eq_none h, getD_none, nil_append, drop_eq_nil_of_le h, drop_eq_nil_of_le (by omega)]

/-- **Walking down** takes the rest of the flat list up to the limit. -/
theorem walkFrom_spec (limit left row skip : Nat) (out : List (Anchor × Line))
 (hleft : row + left = t.rows.length) (hout : out.length ≤ limit) :
 ∃ shown, t.walkFrom p limit left row skip out = some shown ∧ shown.map Prod.snd
   = out.map Prod.snd ++ (t.restFrom p row skip).take (limit - out.length) := by
 induction left generalizing row skip out with
 | zero =>
  have hlen : (p.blocks t.rows t.width t.look).length ≤ row := by
   rw [blocks, Presenter.length_blocksFrom]
   omega
  have hrest : t.restFrom p row skip = [] := by
   rw [restFrom, getElem?_eq_none hlen, drop_eq_nil_of_le (Nat.le_succ_of_le hlen)]
   simp
  exact ⟨out, rfl, by rw [hrest, take_nil, append_nil]⟩
 | succ left ih =>
  have hlt : row < (p.blocks t.rows t.width t.look).length := by
   rw [blocks, Presenter.length_blocksFrom]
   omega
  obtain ⟨block, hblock⟩ := isSome_iff_exists.mp (isSome_iff_ne_none.mpr
   fun h => absurd (List.getElem?_eq_none_iff.mp h) (Nat.not_le.mpr hlt))
  have hrest : t.restFrom p row skip = block.drop skip ++ t.restFrom p (row + 1) 0 := by
   rw [restFrom_zero, restFrom, hblock, getD_some]
  have hpush := pushLines_spec row limit (block.zipIdx.drop skip) out hout
  rw [map_drop, zipIdx_map_fst, length_drop, length_zipIdx, ← length_drop] at hpush
  rw [walkFrom, lines_eq, hblock, bind_eq_bind, bind_some, hrest]
  obtain ⟨pushed, hp⟩ : ∃ pushed, pushLines row limit (block.zipIdx.drop skip) out = pushed :=
   ⟨_, rfl⟩
  obtain ⟨full, pushed⟩ := pushed
  rw [hp] at hpush ⊢
  obtain ⟨hmap, hfull⟩ := hpush
  cases full with
  | true =>
   have hlong := hfull.mp rfl
   refine ⟨pushed, rfl, ?_⟩
   rw [hmap, take_append_of_le_length (by omega)]
  | false =>
   have hshort : ¬ limit < out.length + (block.drop skip).length := fun h =>
    absurd (hfull.mpr h) (by simp)
   rw [take_of_length_le (by omega)] at hmap
   have hlen : pushed.length = out.length + (block.drop skip).length := by
    have h := congrArg List.length hmap
    rwa [length_map, length_append, length_map] at h
   obtain ⟨shown, hs, hshown⟩ := ih (row + 1) 0 pushed (by omega) (by omega)
   refine ⟨shown, hs, ?_⟩
   have hall : (block.drop skip).take (limit - out.length) = block.drop skip :=
    take_of_length_le (by omega)
   rw [hshown, hmap, hlen, take_append, hall, append_assoc, Nat.sub_sub]

/-- **What is on screen** is a stretch of the flat list. -/
theorem Fresh.visible (h : t.Fresh p) (hk : t.Kept p) : t.offset p = some (t.start p) ∧ t.visible p
   = some (((p.flatLines t.rows t.width t.look).drop (t.start p)).take t.height) := by
 obtain ⟨top, htop, hrow, hfresh⟩ := hk.top
 obtain ⟨⟨size, hs, hl⟩, hstart⟩ := hfresh h
 refine ⟨?_, ?_⟩
 · rw [offset, htop, h.heights, ← hstart]
   rfl
 obtain ⟨shown, hshown, hmap⟩ := walkFrom_spec (p := p) (t := t) t.height
  (t.rows.length - top.row) top.row top.line [] (by omega) (Nat.zero_le _)
 rw [Transcript.visible, htop]
 simp only [bind_eq_bind, bind_some, walk, hshown, hmap]
 rw [sizes, counts, getElem?_map] at hs
 obtain ⟨block, hb, rfl⟩ := map_eq_some_iff.mp hs
 have hblock : (p.blocks t.rows t.width t.look)[top.row]? = some block := hb
 have hrest : t.restFrom p top.row top.line
  = (p.flatLines t.rows t.width t.look).drop (t.start p) := by
  rw [← hstart, restFrom, hblock, getD_some]
  exact (Blocks.drop_flat hb (Nat.le_of_lt hl)).symm
 rw [hrest]
 rfl

/-! ## Resizing -/

theorem mapM_range' {α : Type} (l : List α) (f : Nat → Option α) (hf : ∀ i, f i = l[i]?)
 (k n : Nat) (h : k + n = l.length) : (List.range' k n).mapM f = some (l.drop k) := by
 induction n generalizing k with
 | zero =>
  rw [drop_eq_nil_of_le (by omega)]
  rfl
 | succ n ih =>
  have hlt : k < l.length := by omega
  rw [range'_succ, mapM_cons, hf, getElem?_eq_getElem hlt, ih (k + 1) (by omega),
   drop_eq_getElem_cons hlt]
  rfl

/-- The heights are those of the rows as they are drawn now, whichever were still known. -/
theorem measure_spec (h : t.Kept p) (width height : Nat) (look : Look) :
 measure p { t with width := width, height := height, look := look } = some { t with
   width := width, height := height, look := look
   heights := p.counts t.rows width look
   measured := some (width, look.tones, look.classic) } := by
 obtain ⟨known, hknown⟩ : ∃ known, (if t.measured = some (width, look.tones, look.classic)
  then t.heights else []) = known := ⟨_, rfl⟩
 have hprefix : known <+: p.counts t.rows width look := by
  rw [← hknown]
  split
  next hkey =>
   have hk := h.measured _ hkey
   simp only [Prod.mk.injEq] at hk
   obtain ⟨rfl, htones, hclassic⟩ := hk
   rw [counts_key t.rows t.width htones hclassic]
   exact h.heights
  · exact nil_prefix
 have hlen : known.length ≤ t.rows.length := by
  have hle := hprefix.length_le
  rwa [length_counts] at hle
 have hbehind := mapM_range' (p.counts t.rows width look)
  (count p { t with width := width, height := height, look := look })
  (fun i => count_eq _ i) known.length (t.rows.length - known.length)
  (by rw [length_counts]; omega)
 rw [measure]
 simp only [hknown, take_of_length_le hlen, hbehind, bind_eq_bind, bind_some]
 obtain ⟨rest, hrest⟩ := hprefix
 rw [← hrest, drop_left]

/-- A transcript as it is resized, with the top where it ends up. -/
def resized (p : Presenter Row Line) (t : Transcript Row) (width height : Nat) (look : Look)
 (seen : Nat) (anchor : Option Anchor) : Transcript Row :=
 { t with
   width := width, height := height, look := look, seen := seen, anchor := anchor
   heights := p.counts t.rows width look
   measured := some (width, look.tones, look.classic) }

/-- **Resizing** keeps the top in range, and where nothing but the blink's phase changes, on
the line it is on. -/
theorem resize_spec (h : t.Kept p) (width : Nat) {height : Nat} (hheight : 0 < height)
 (look : Look) : ∃ seen anchor,
  t.resize p width height look = some (t.resized p width height look seen anchor)
  ∧ (∀ x, anchor = some x → x.row < t.rows.length ∧ Within (p.counts t.rows width look) x.place
   ∧ flat (p.counts t.rows width look) x.place < (p.counts t.rows width look).sum - height)
  ∧ (t.Fresh p → t.width = width → t.height = height → p.counts t.rows width look = t.sizes p →
   start p (t.resized p width height look seen anchor) = t.start p) := by
 rw [resize, measure_spec h]
 simp only [bind_eq_bind, bind_some]
 cases hanchor : t.anchor with
 | none =>
  refine ⟨t.rows.length, none, by simp [resized], fun _ hx => absurd hx (by simp), ?_⟩
  rintro - rfl rfl hcounts
  rw [start, start, hanchor]
  show (p.counts t.rows t.width look).sum - t.height = (t.sizes p).sum - t.height
  rw [hcounts]
 | some a =>
  have hrow := h.anchor a hanchor
  have hmin : min a.row (t.rows.length - 1) = a.row := by omega
  obtain ⟨r, hr⟩ : ∃ r, t.resized p width height look t.seen (some a) = r := ⟨_, rfl⟩
  have hrows : r.rows = t.rows := hr ▸ rfl
  have hsizes : r.sizes p = p.counts t.rows width look := hr ▸ rfl
  obtain ⟨count, hcount, hsize⟩ := count_some (p := p) (t := r) (hrows ▸ hrow)
  obtain ⟨x, hx⟩ : ∃ x : Anchor, x = ⟨a.row, min a.line (count - 1)⟩ := ⟨_, rfl⟩
  have hpos : 0 < count := Presenter.counts_pos count (mem_of_getElem? hsize)
  have hwithin : Within (r.sizes p) x.place := by
   rw [hx]
   exact ⟨count, hsize, show min a.line (count - 1) < count by omega⟩
  have hxrow : x.row < r.rows.length := by rw [hx, hrows]; exact hrow
  obtain ⟨anchor, hs, hlt, hspec⟩ := settle_spec (p := p) (t := r) (hrows ▸ h.rows) x hxrow
  obtain ⟨hkeep, hstart⟩ := hspec (hr ▸ hheight) hwithin
  refine ⟨t.seen, anchor, ?_, fun y hy => ?_, fun hf hw hh hcounts => ?_⟩
  · subst hr
    simp only [resized] at hcount hs ⊢
    simp only [isNone_some, Bool.false_eq_true, if_false, hmin, hcount, bind_some, ← hx]
    exact hs
  · obtain ⟨rfl, hlast⟩ := hkeep y hy
    rw [← hsizes]
    refine ⟨hrows ▸ hxrow, hwithin, ?_⟩
    subst hr
    exact hlast
  -- nothing is clamped: the line was one of its row's already
  obtain ⟨⟨size, hat, hline⟩, hle⟩ := hf.anchor a hanchor
  rw [← hcounts, ← hsizes] at hat
  obtain rfl := some.inj (hat.symm.trans hsize)
  have hxa : x = a := by
   rw [hx]
   show (⟨a.row, min a.line (size - 1)⟩ : Anchor) = ⟨a.row, a.line⟩
   rw [Nat.min_eq_left (show a.line ≤ size - 1 from Nat.le_sub_one_of_lt hline)]
  have hsame : r.sizes p = t.sizes p := hsizes.trans hcounts
  have hbottom : r.bottom p = t.bottom p := by
   rw [bottom, hsame, show r.height = t.height from hr ▸ hh.symm, bottom]
  rw [hxa, hsame, hbottom, Nat.min_eq_left hle] at hstart
  have hat' : t.start p = flat (t.sizes p) a.place := by rw [start, hanchor]
  rw [hat', ← hstart]
  subst hr
  rfl

variable {result : Option (Transcript Row)}

theorem Moves.kept {line : Nat → Prop} (h : t.Kept p) (hm : t.Moves p result line) :
 ∃ t', result = some t' ∧ t'.Kept p ∧ (t.Fresh p → t'.Fresh p ∧ line (t'.start p)) := by
 obtain ⟨anchor, hr, hrow, hspec⟩ := hm
 refine ⟨_, hr, ⟨h.rows, h.committed, hrow, h.heights, h.measured⟩, fun hf => ?_⟩
 obtain ⟨hrange, hline⟩ := hspec hf
 exact ⟨⟨hf.height, hf.heights, hrange⟩, hline⟩

theorem resized_kept (h : t.Kept p) {width height : Nat} (hheight : 0 < height) {look : Look}
 {seen : Nat} {anchor : Option Anchor}
 (hx : ∀ x, anchor = some x → x.row < t.rows.length ∧ Within (p.counts t.rows width look) x.place
  ∧ flat (p.counts t.rows width look) x.place < (p.counts t.rows width look).sum - height) :
 (t.resized p width height look seen anchor).Kept p
  ∧ (t.resized p width height look seen anchor).Fresh p := by
 refine ⟨⟨h.rows, h.committed, fun x hxa => (hx x hxa).1, prefix_refl _, fun key hk => ?_⟩,
  hheight, rfl, fun x hxa => ⟨(hx x hxa).2.1, Nat.le_of_lt (hx x hxa).2.2⟩⟩
 exact (some.inj hk).symm

/-! ## Windows -/

def flatLines (p : Presenter Row Line) (t : Transcript Row) : List Line :=
 p.flatLines t.rows t.width t.look

/-- The heights are the true ones, and what is on screen is a viewport's height of the flat
list from the offset on, the last lines exactly while following. -/
def Windowed (p : Presenter Row Line) (t : Transcript Row) : Prop :=
 t.heights = t.sizes p ∧ t.total = (t.flatLines p).length
  ∧ ∃ top shown, t.offset p = some top ∧ t.visible p = some shown
   ∧ shown = ((t.flatLines p).drop top).take t.height
   ∧ shown.length = min t.height t.total
   ∧ (t.anchor = none ↔ top + shown.length = t.total)

/-- An operation puts the top on a line, where the next frame of that size has it too. -/
def Lands (p : Presenter Row Line) (result : Option (Transcript Row)) (top : Nat) : Prop :=
 ∃ t, result = some t ∧ t.offset p = some top
  ∧ ∀ lit, ∃ t', t.resize p t.width t.height { t.look with lit := lit } = some t'
   ∧ t'.offset p = some top

theorem Fresh.total (h : t.Fresh p) : t.total = (t.flatLines p).length := by
 rw [Transcript.total, h.heights, flatLines, Presenter.flatLines, length_flatten]
 rfl

theorem Fresh.windowed (h : t.Fresh p) (hk : t.Kept p)
 (hlast : ∀ x, t.anchor = some x → flat (t.sizes p) x.place < t.bottom p) : t.Windowed p := by
 obtain ⟨hoffset, hvisible⟩ := h.visible hk
 have htotal := h.total
 have hsum : (t.sizes p).sum = t.total := by rw [Transcript.total, h.heights]
 have hlen : (((t.flatLines p).drop (t.start p)).take t.height).length
  = min t.height (t.total - t.start p) := by
  rw [length_take, length_drop, htotal]
 have hle := h.start_le
 have hb : t.bottom p = t.total - t.height := by rw [bottom, hsum]
 refine ⟨h.heights, htotal, t.start p, _, hoffset, hvisible, rfl, ?_, ?_⟩
 · refine hlen.trans ?_
   omega
 · rw [show ((p.flatLines t.rows t.width t.look).drop (t.start p)).take t.height
    = ((t.flatLines p).drop (t.start p)).take t.height from rfl, hlen]
   cases hanchor : t.anchor with
   | none =>
    have hstart : t.start p = t.bottom p := by rw [start, hanchor]
    exact ⟨fun _ => by omega, fun _ => rfl⟩
   | some x =>
    have hlt := hlast x hanchor
    have hstart : t.start p = flat (t.sizes p) x.place := by rw [start, hanchor]
    exact ⟨by simp, fun h => by omega⟩

theorem resized_windowed (h : t.Kept p) (width : Nat) {height : Nat} (hheight : 0 < height)
 (look : Look) : ∃ t', t.resize p width height look = some t' ∧ t'.Windowed p := by
 obtain ⟨seen, anchor, hr, hx, -⟩ := resize_spec h width hheight look
 obtain ⟨hk, hf⟩ := @resized_kept _ _ _ _ h _ _ hheight _ seen _ hx
 exact ⟨_, hr, hf.windowed hk fun x hxa => (hx x hxa).2.2⟩

theorem Moves.lands {top : Nat} (h : t.Kept p) (hf : t.Fresh p) (hm : t.Moves p result (· = top)) :
 Lands p result top := by
 obtain ⟨t', hr, hk, hspec⟩ := hm.kept h
 obtain ⟨hf', rfl⟩ := hspec hf
 refine ⟨t', hr, (hf'.visible hk).1, fun lit => ?_⟩
 obtain ⟨seen, anchor, hre, hx, hstart⟩ :=
  resize_spec hk t'.width hf'.height { t'.look with lit := lit }
 obtain ⟨hk', hf''⟩ := @resized_kept _ _ _ _ hk _ _ hf'.height _ seen _ hx
 refine ⟨_, hre, ?_⟩
 rw [(hf''.visible hk').1, hstart hf' rfl rfl (counts_key _ _ rfl rfl)]

/-! ## Replacing rows -/

variable [DecidableEq Row]

theorem take_same (old new : List Row) :
 old.take ((old.zip new).takeWhile fun (o, n) => o == n).length
  = new.take ((old.zip new).takeWhile fun (o, n) => o == n).length := by
 induction old generalizing new with
 | nil => simp
 | cons o old ih =>
  cases new with
  | nil => simp
  | cons n new =>
   rw [zip_cons_cons, takeWhile_cons]
   by_cases heq : o = n
   · subst heq
     simp [ih new]
   · simp [heq]

/-- **Replacing the live rows** leaves the settled ones and the heights of the rows in front
of the first change. -/
theorem replaceLive_spec (h : t.Kept p) (rows : List Row)
 (hne : t.rows.take t.committed ++ rows ≠ []) :
 ∃ t', t.replaceLive p rows = some t' ∧ t'.Kept p ∧ t'.rows ≠ [] := by
 obtain ⟨same, hsame⟩ : ∃ same, (((t.rows.drop t.committed).zip rows).takeWhile
  fun (old, new) => old == new).length = same := ⟨_, rfl⟩
 have hrows : t.rows.take (t.committed + same) ++ rows.drop same
  = t.rows.take t.committed ++ rows := by
  rw [take_add, append_assoc]
  have htake := take_same (t.rows.drop t.committed) rows
  rw [hsame] at htake
  rw [htake, take_append_drop]
 obtain ⟨r, hr⟩ : ∃ r : Transcript Row, touched { t with
  rows := t.rows.take (t.committed + same) ++ rows.drop same } (t.committed + same) = r :=
  ⟨_, rfl⟩
 have hrr : r.rows = t.rows.take t.committed ++ rows := by
  rw [← hr]
  exact hrows
 have hsettled : r.committed ≤ r.rows.length := by
  rw [hrr, length_append, length_take, Nat.min_eq_left h.committed,
   show r.committed = t.committed from hr ▸ rfl]
  omega
 -- the heights left are those of the rows in front of the change
 have hheights : r.heights <+: r.sizes p := by
  have hfirst : t.heights.take (t.committed + same)
   <+: p.counts (t.rows.take (t.committed + same)) t.width t.look := by
   refine prefix_of_prefix_length_le (( take_prefix _ _).trans h.heights)
    ( counts_prefix _ _ ( take_prefix ..)) ?_
   have hle := h.heights.length_le
   rw [length_counts] at hle
   rw [length_counts, length_take, length_take]
   omega
  subst hr
  exact hfirst.trans ( counts_prefix _ _ (prefix_append ..))
 have hkept : ∀ anchor, (∀ a, anchor = some a → a.row < r.rows.length) →
  Kept p { r with anchor := anchor } := fun anchor ha =>
  ⟨hrr ▸ hne, hsettled, ha, hheights, hr ▸ h.measured⟩
 have hnone : r.anchor = none → t.replaceLive p rows = some r := fun ha => by
  subst hr hsame
  exact (if_neg (Nat.not_lt.mpr h.committed)).trans (by dsimp only; rw [ha])
 have hsome : ∀ a, r.anchor = some a → t.replaceLive p rows = if r.rows.length ≤ a.row then
   settle p { r with anchor := some { row := r.rows.length - 1, line := 0 } }
  else some r := fun a ha => by
  subst hr hsame
  exact (if_neg (Nat.not_lt.mpr h.committed)).trans (by dsimp only; rw [ha])
 cases hanchor : r.anchor with
 | none =>
  rw [hnone hanchor]
  have hself : r = { r with anchor := none } := by rw [← hanchor]
  exact ⟨r, rfl, hself ▸ hkept none fun _ ha => absurd ha (by simp), hrr ▸ hne⟩
 | some a =>
  rw [hsome a hanchor]
  by_cases hgone : r.rows.length ≤ a.row
  · have hpos := length_pos_iff.mpr (show r.rows ≠ [] from hrr ▸ hne)
    obtain ⟨anchor, hs, hlt, -⟩ := settle_spec (p := p) (hrr ▸ hne)
     { row := r.rows.length - 1, line := 0 } (show r.rows.length - 1 < r.rows.length by omega)
    exact ⟨_, by rw [← hs]; exact if_pos hgone, hkept anchor hlt, hrr ▸ hne⟩
  · have hself : r = { r with anchor := some a } := by rw [← hanchor]
    refine ⟨r, if_neg hgone, hself ▸ hkept (some a) fun b hb => ?_, hrr ▸ hne⟩
    cases hb; exact Nat.lt_of_not_le hgone

end Transcript

/-! ## Runs -/

variable [DecidableEq Row] {p : Presenter Row Line}

/-- What holds of every view of a run. -/
structure View.Sound (p : Presenter Row Line) (v : View Row) : Prop where
 failed : v.failed = false
 kept : v.transcript.Kept p
 fresh : v.fresh = true → v.transcript.Fresh p

theorem View.Sound.apply {v : View Row} (h : v.Sound p) {op : Op Row} (hop : v.Allows op) :
 ∃ t, op.apply p v.transcript = some t ∧ t.Kept p ∧ (op.freshens v.fresh = true → t.Fresh p) := by
 have hmoves : ∀ {result line}, v.transcript.Moves p result line → ∃ t, result = some t
  ∧ t.Kept p ∧ (v.fresh = true → t.Fresh p) := fun hm => by
  obtain ⟨t, hr, hk, hspec⟩ := hm.kept h.kept
  exact ⟨t, hr, hk, fun hf => (hspec (h.fresh hf)).1⟩
 cases op with
 | resize width height look =>
  obtain ⟨seen, anchor, hr, hx, -⟩ := Transcript.resize_spec h.kept width hop look
  obtain ⟨hk, hf⟩ := @Transcript.resized_kept _ _ _ _ h.kept _ _ hop _ seen _ hx
  exact ⟨_, hr, hk, fun _ => hf⟩
 | scrollUp lines => exact hmoves (scrollUp h.kept lines)
 | scrollDown lines => exact hmoves (scrollDown h.kept lines)
 | toStart => exact hmoves (toStart h.kept)
 | follow => exact hmoves (of_follow _)
 | previousPrompt => exact hmoves (previousPrompt h.kept)
 | nextPrompt => exact hmoves (nextPrompt h.kept)
 | jump offset => exact hmoves (jump h.kept (h.fresh hop) offset)
 | setLive rows =>
  obtain ⟨t, hr, hk, -⟩ := Transcript.replaceLive_spec h.kept rows hop
  exact ⟨t, hr, hk, by simp [Op.freshens]⟩
 | commit rows =>
  obtain ⟨t, hr, hk, -⟩ := Transcript.replaceLive_spec h.kept rows hop
  refine ⟨{ t with committed := t.rows.length }, ?_, ?_, fun hf => ?_⟩
  · show v.transcript.commit p rows = _
    rw [Transcript.commit, hr]
    rfl
  · exact ⟨hk.rows, Nat.le_refl _, hk.anchor, hk.heights, hk.measured⟩
  · simp [Op.freshens] at hf

theorem View.Sound.step {v : View Row} (h : v.Sound p) {op : Op Row} (hop : v.Allows op) :
 (v.step p op).Sound p := by
 obtain ⟨t, ht, hk, hf⟩ := h.apply hop
 rw [View.step, ht]
 exact ⟨h.failed, hk, hf⟩

theorem View.Sound.reached {v : View Row} (h : v.Reached p) : v.Sound p := by
 refine Run.Reach.invariant (fun v : View Row => v.Sound p) ?_ (fun _ _ hv hop => hv.step hop) h
 rintro _ ⟨rows, hne, rfl⟩
 refine ⟨rfl, ⟨hne, Nat.le_refl _, fun a ha => ?_, nil_prefix, fun key hkey => ?_⟩, fun hf => ?_⟩
 · simp [Transcript.new] at ha
 · simp [Transcript.new] at hkey
 · simp at hf

/-- **The viewport is a window on the flat list of lines.** Over every run, no operation
indexes out of range; behind every resize the heights are the true ones and the screen shows
the lines from the offset on; and from a resize to the next change of the rows, moving the
viewport is arithmetic on the offset. -/
theorem viewport_is_window {v : View Row} (h : v.Reached p) : v.failed = false
 ∧ (∀ width height look, 0 < height →
  ∃ t, v.transcript.resize p width height look = some t ∧ t.Windowed p)
 ∧ (v.fresh = true → ∃ top, v.transcript.offset p = some top
  ∧ (∀ n, Transcript.Lands p (v.transcript.scrollUp p n) (top - n))
  ∧ (∀ n, Transcript.Lands p (v.transcript.scrollDown p n)
   (min (top + n) (v.transcript.total - v.transcript.height)))
  ∧ ∀ offset, Transcript.Lands p (v.transcript.jump p offset)
   (min offset (v.transcript.total - v.transcript.height))) := by
 have hs := View.Sound.reached h
 refine ⟨hs.failed, fun width height look hheight =>
  Transcript.resized_windowed hs.kept width hheight look, fun hfresh => ?_⟩
 have hf := hs.fresh hfresh
 have hb : v.transcript.total - v.transcript.height = v.transcript.bottom p := by
  rw [Transcript.bottom, Transcript.total, hf.heights]
 rw [hb]
 exact ⟨_, (hf.visible hs.kept).1, fun n => (scrollUp hs.kept n).lands hs.kept hf,
  fun n => (scrollDown hs.kept n).lands hs.kept hf,
  fun offset => (jump hs.kept hf offset).lands hs.kept hf⟩

/-- Rows that are drawn as many lines as they say, users' rows being the odd ones. -/
def tallRows : Presenter Nat Unit where
 isUser row := row % 2 == 1
 blank := ()
 rule _ _ := ()
 body row _ _ := List.replicate (row + 1) ()
 body_ne row _ _ := by simp [replicate_succ]
 body_lit _ _ _ _ := rfl

def scrolledView : View Nat :=
 ((View.mk (Transcript.new [2, 1, 4]) false false).step tallRows (.resize 80 4 {})).step tallRows
  (.scrollUp 3)

theorem viewport_is_window_scrolled : scrolledView.failed = false
 ∧ (∀ width height look, 0 < height →
  ∃ t, scrolledView.transcript.resize tallRows width height look = some t ∧ t.Windowed tallRows)
 ∧ (scrolledView.fresh = true → ∃ top, scrolledView.transcript.offset tallRows = some top
  ∧ (∀ n, Transcript.Lands tallRows (scrolledView.transcript.scrollUp tallRows n) (top - n))
  ∧ (∀ n, Transcript.Lands tallRows (scrolledView.transcript.scrollDown tallRows n)
   (min (top + n) (scrolledView.transcript.total - scrolledView.transcript.height)))
  ∧ ∀ offset, Transcript.Lands tallRows (scrolledView.transcript.jump tallRows offset)
   (min offset (scrolledView.transcript.total - scrolledView.transcript.height))) :=
 viewport_is_window (.step (.step (.init ⟨[2, 1, 4], by simp, rfl⟩)
  (show 0 < 4 by decide)) trivial)

end Bake.Tui
