import Bake.Tui.Transcript

/-!
# Moving the viewport

The transcript as a flat list of lines, its rows being blocks of it. Every operation moves
the anchor as plain arithmetic moves a line number: the loops walk rows up and down, and the
places they end at have the number that was sought. What a run keeps whether or not the
heights are up to date is `Kept`; what holds from a resize to the next change of the rows is
`Fresh`.
-/

open List Option

namespace Bake.Tui

open Blocks (flat Within Le)
open Presenter

variable {Row Line : Type}

namespace Presenter

variable (p : Presenter Row Line)

def blocksFrom (width : Nat) (look : Look) : Option Row → List Row → List (List Line)
 | _, [] => []
 | before, row :: rest =>
  (p.opening before row width look ++ p.body row width look)
   :: blocksFrom width look (some row) rest

def blocks (rows : List Row) (width : Nat) (look : Look) : List (List Line) :=
 p.blocksFrom width look none rows

def flatLines (rows : List Row) (width : Nat) (look : Look) : List Line :=
 (p.blocks rows width look).flatten

variable (width : Nat)

theorem getElem?_blocksFrom (look : Look) (before : Option Row) (rows : List Row)
 (index : Nat) : (p.blocksFrom width look before rows)[index]? = (rows[index]?).map fun row =>
  p.opening (match index with | 0 => before | i + 1 => rows[i]?) row width look
   ++ p.body row width look := by
 induction rows generalizing before index with
 | nil => rfl
 | cons row rest ih =>
  cases index with
  | zero => rfl
  | succ index =>
   rw [blocksFrom, getElem?_cons_succ, getElem?_cons_succ, ih]
   cases index <;> rfl

variable (rows : List Row)

theorem present_eq (index width : Nat) (look : Look) :
 p.present rows index width look = (p.blocks rows width look)[index]? := by
 rw [blocks, getElem?_blocksFrom, present]
 cases hrow : rows[index]? with
 | none => rfl
 | some row =>
  cases index with
  | zero => rfl
  | succ i =>
   have hlt := (List.getElem_of_getElem? hrow).1
   obtain ⟨before, hbefore⟩ : ∃ before, rows[i]? = some before :=
    ⟨rows[i], getElem?_eq_getElem (by omega)⟩
   simp [previous, hbefore]

@[simp] theorem length_blocksFrom (look : Look) (before : Option Row)
 (rows : List Row) : (p.blocksFrom width look before rows).length = rows.length := by
 induction rows generalizing before with
 | nil => rfl
 | cons row rest ih => rw [blocksFrom, length_cons, length_cons, ih]

theorem blocksFrom_prefix (look : Look) (before : Option Row) {a b : List Row}
 (h : a <+: b) : p.blocksFrom width look before a <+: p.blocksFrom width look before b := by
 induction a generalizing before b with
 | nil => exact nil_prefix
 | cons row rest ih =>
  obtain ⟨more, rfl⟩ := h
  rw [cons_append, blocksFrom, blocksFrom, cons_prefix_cons]
  exact ⟨rfl, ih _ (prefix_append ..)⟩

def counts (rows : List Row) (width : Nat) (look : Look) : List Nat :=
 (p.blocks rows width look).map List.length

variable {p}

theorem length_counts (width : Nat) (look : Look) :
  (p.counts rows width look).length = rows.length := by
 rw [counts, length_map, blocks, length_blocksFrom]

theorem counts_prefix (look : Look) {a b : List Row} (h : a <+: b) :
 p.counts a width look <+: p.counts b width look :=
 (p.blocksFrom_prefix width look none h).map _

theorem length_opening (before : Option Row) (row : Row) (width : Nat) (look look' : Look) :
 (p.opening before row width look).length = (p.opening before row width look').length := by
 cases before with
 | none => rfl
 | some before =>
  rw [opening, opening]
  split <;> rfl

theorem counts_key (width : Nat) {look look' : Look}
 (htones : look'.tones = look.tones) (hclassic : look'.classic = look.classic) :
 p.counts rows width look' = p.counts rows width look := by
 have hlook : look' = { look with lit := look'.lit } := by
  obtain ⟨tones, classic, lit⟩ := look'
  obtain rfl : tones = look.tones := htones
  obtain rfl : classic = look.classic := hclassic
  rfl
 have hbody : ∀ row, (p.body row width look').length = (p.body row width look).length :=
  fun row => hlook ▸ p.body_lit row width look look'.lit
 have hfrom : ∀ before, (p.blocksFrom width look' before rows).map List.length
  = (p.blocksFrom width look before rows).map List.length := by
  induction rows with
  | nil => exact fun _ => rfl
  | cons row rest ih =>
   intro before
   rw [blocksFrom, blocksFrom, map_cons, map_cons, length_append,
    length_append, ih, hbody row, length_opening before row width look' look]
 exact hfrom none

theorem counts_pos {rows : List Row} {width : Nat} {look : Look} :
 ∀ count ∈ p.counts rows width look, 0 < count := by
 intro count hc
 obtain ⟨block, hb, rfl⟩ := mem_map.mp hc
 obtain ⟨index, hi⟩ := mem_iff_getElem?.mp hb
 rw [blocks, getElem?_blocksFrom] at hi
 obtain ⟨row, -, rfl⟩ := map_eq_some_iff.mp hi
 have hbody := length_pos_iff.mpr (p.body_ne row width look)
 rw [length_append]
 omega

theorem opening_lt {rows : List Row} {index count width : Nat} {look : Look} {row : Row}
 {before : Option Row} (hrow : rows[index]? = some row)
 (hbefore : previous rows index = some before)
 (hcount : (p.counts rows width look)[index]? = some count) :
 (p.opening before row width look).length < count := by
 rw [counts, getElem?_map, ← present_eq, present, hrow] at hcount
 simp only [bind_eq_bind, bind_some, hbefore, map_some, some.injEq] at hcount
 have hbody := length_pos_iff.mpr (p.body_ne row width look)
 rw [← hcount, length_append]
 omega

end Presenter

namespace Transcript

variable {p : Presenter Row Line} {t : Transcript Row}

/-- The heights of a transcript's rows as it is drawn now. -/
abbrev sizes (p : Presenter Row Line) (t : Transcript Row) : List Nat :=
 p.counts t.rows t.width t.look

/-- The last line the top can be on. -/
def bottom (p : Presenter Row Line) (t : Transcript Row) : Nat := (t.sizes p).sum - t.height

/-- The number of the top's line. -/
def start (p : Presenter Row Line) (t : Transcript Row) : Nat :=
 match t.anchor with
 | some anchor => flat (t.sizes p) anchor.place
 | none => t.bottom p

theorem count_eq (t : Transcript Row) (index : Nat) : t.count p index = (t.sizes p)[index]? := by
 rw [count, lines, present_eq, sizes, counts, getElem?_map]

theorem count_some {index : Nat} (h : index < t.rows.length) :
 ∃ count, t.count p index = some count ∧ (t.sizes p)[index]? = some count := by
 have hlt : index < (t.sizes p).length := by rw [length_counts]; exact h
 exact ⟨(t.sizes p)[index], by rw [count_eq, getElem?_eq_getElem hlt],
  getElem?_eq_getElem hlt⟩

theorem within_start (hne : t.rows ≠ []) : Within (t.sizes p) (0, 0) := by
 refine Within.start ?_ counts_pos
 rw [← length_pos_iff, length_counts]
 exact length_pos_iff.mpr hne

/-! ## Walking -/

/-- **Up from the bottom** by a viewport's height. -/
theorem bottomFrom_spec (hne : t.rows ≠ []) (index need : Nat) (hi : index ≤ t.rows.length) :
 ∃ a, t.bottomFrom p index need = some a ∧ a.row < t.rows.length
  ∧ (0 < need → Within (t.sizes p) a.place
   ∧ flat (t.sizes p) a.place = ((t.sizes p).take index).sum - need) := by
 induction index generalizing need with
 | zero =>
  refine ⟨{}, rfl, length_pos_iff.mpr hne, fun _ => ⟨within_start hne, ?_⟩⟩
  rw [take_zero, sum_nil, Nat.zero_sub]
  exact Blocks.flat_start _
 | succ index ih =>
  obtain ⟨count, hcount, hsize⟩ := count_some (p := p) (show index < t.rows.length from hi)
  have hsum := Blocks.sum_take_succ hsize
  rw [bottomFrom, hcount, bind_eq_bind, bind_some]
  by_cases hneed : need ≤ count
  · refine ⟨⟨index, count - need⟩, by rw [if_pos hneed], hi, fun hpos => ⟨?_, ?_⟩⟩
    · exact ⟨count, hsize, show count - need < count by omega⟩
    · rw [hsum]
      show ((t.sizes p).take index).sum + (count - need) = _
      omega
  · obtain ⟨a, ha, hrow, hspec⟩ := ih (need - count) (Nat.le_of_lt hi)
    refine ⟨a, by rw [if_neg hneed, ha], hrow, fun _ => ?_⟩
    obtain ⟨hwithin, hflat⟩ := hspec (by omega)
    exact ⟨hwithin, by rw [hflat, hsum]; omega⟩

theorem bottomAnchor_spec (hne : t.rows ≠ []) :
 ∃ a, t.bottomAnchor p = some a ∧ a.row < t.rows.length
  ∧ (0 < t.height → Within (t.sizes p) a.place ∧ flat (t.sizes p) a.place = t.bottom p) := by
 have h := bottomFrom_spec (p := p) hne t.rows.length t.height (Nat.le_refl _)
 rwa [← length_counts (p := p) t.rows t.width t.look, take_length, length_counts] at h

/-- **Up from a line.** -/
theorem upFrom_spec (hne : t.rows ≠ []) (row line n : Nat) (hrow : row < t.rows.length) :
 ∃ a, t.upFrom p row line n = some a ∧ a.row < t.rows.length
  ∧ flat (t.sizes p) a.place = flat (t.sizes p) (row, line) - n
  ∧ ((∃ size, (t.sizes p)[row]? = some size ∧ (line < size ∨ (0 < n ∧ line ≤ size))) →
   Within (t.sizes p) a.place) := by
 induction row generalizing line n with
 | zero =>
  rw [upFrom]
  split
  next hn =>
   subst hn
   refine ⟨_, rfl, hrow, rfl, fun h => h.imp fun size => And.imp_right fun hl => ?_⟩
   exact hl.resolve_right (by omega)
  · split
    next hn hle =>
     refine ⟨_, rfl, hrow, ?_, fun h => h.imp fun size => And.imp_right fun hl => ?_⟩
     · simp [Anchor.place, flat]
     · show line - n < size
       omega
    next hn hle =>
     refine ⟨_, rfl, hrow, ?_, fun _ => within_start hne⟩
     simp only [Anchor.place, flat, take_zero, sum_nil]
     omega
 | succ row ih =>
  rw [upFrom]
  split
  next hn =>
   subst hn
   refine ⟨_, rfl, hrow, rfl, fun h => h.imp fun size => And.imp_right fun hl => ?_⟩
   exact hl.resolve_right (by omega)
  · split
    next hn hle =>
     refine ⟨_, rfl, hrow, ?_, fun h => h.imp fun size => And.imp_right fun hl => ?_⟩
     · show ((t.sizes p).take (row + 1)).sum + (line - n)
        = ((t.sizes p).take (row + 1)).sum + line - n
       omega
     · show line - n < size
       omega
    next hn hle =>
     obtain ⟨count, hcount, hsize⟩ := count_some (p := p) (Nat.lt_of_succ_lt hrow)
     obtain ⟨a, ha, har, hflat, hwithin⟩ := ih count (n - line) (Nat.lt_of_succ_lt hrow)
     refine ⟨a, by rw [hcount]; exact ha, har, ?_, fun _ => ?_⟩
     · have hsum := Blocks.sum_take_succ hsize
       rw [hflat]
       simp only [flat] at *
       omega
     · exact hwithin ⟨count, hsize, Or.inr ⟨by omega, Nat.le_refl _⟩⟩

/-- **Down from a line,** to a line of a row or past the rows. -/
theorem downFrom_spec (left row line : Nat) (hleft : row + left = t.rows.length) :
 ∃ a, t.downFrom p left row line = some a ∧ flat (t.sizes p) a.place = flat (t.sizes p) (row, line)
  ∧ (a.row = t.rows.length ∨ Within (t.sizes p) a.place) := by
 induction left generalizing row line with
 | zero => exact ⟨_, rfl, rfl, Or.inl hleft⟩
 | succ left ih =>
  obtain ⟨count, hcount, hsize⟩ := count_some (p := p) (show row < t.rows.length by omega)
  rw [downFrom, hcount, bind_eq_bind, bind_some]
  by_cases hline : line < count
  · exact ⟨⟨row, line⟩, by rw [if_pos hline], rfl, Or.inr ⟨count, hsize, hline⟩⟩
  · obtain ⟨a, ha, hflat, hwhere⟩ := ih (row + 1) (line - count) (by omega)
    refine ⟨a, by rw [if_neg hline, ha], ?_, hwhere⟩
    rw [hflat, flat, flat]
    simp only [Blocks.sum_take_succ hsize]
    omega

/-- **To a line counted from the start,** over heights in front of which rows lie. -/
theorem jumpFrom_spec (sizes : List Nat) {row left : Nat} {rest : List Nat} {anchor : Anchor}
 (hrest : sizes.drop row = rest) (hanchor : anchor.row = row) (hrow : row ≤ sizes.length) :
 (left < rest.sum → Within sizes (jumpFrom rest row left anchor).place
  ∧ flat sizes (jumpFrom rest row left anchor).place = (sizes.take row).sum + left)
  ∧ (rest.sum ≤ left → (jumpFrom rest row left anchor).row = sizes.length) := by
 induction rest generalizing row left anchor with
 | nil =>
  refine ⟨by simp, fun _ => ?_⟩
  have hlen := drop_eq_nil_iff.mp hrest
  rw [jumpFrom, hanchor]
  omega
 | cons height rest ih =>
  have hlt : row < sizes.length := by
   rw [← Nat.not_le, ← drop_eq_nil_iff, hrest]
   simp
  rw [drop_eq_getElem_cons hlt, List.cons.injEq] at hrest
  have hsize : sizes[row]? = some height := by
   rw [getElem?_eq_getElem hlt, hrest.1]
  rw [jumpFrom, sum_cons]
  by_cases hleft : left < height
  · rw [if_pos hleft]
    exact ⟨fun _ => ⟨⟨height, hsize, hleft⟩, rfl⟩, fun h => by omega⟩
  · rw [if_neg hleft]
    have hrec := @ih (row + 1) (left - height) ⟨row + 1, 0⟩ hrest.2 rfl hlt
    rw [Blocks.sum_take_succ hsize] at hrec
    refine ⟨fun h => ?_, fun h => hrec.2 (by omega)⟩
    obtain ⟨hwithin, hflat⟩ := hrec.1 (by omega)
    exact ⟨hwithin, by omega⟩

/-! ## What is kept -/

/-- What a run keeps, whether or not the heights are up to date. -/
structure Kept (p : Presenter Row Line) (t : Transcript Row) : Prop where
 rows : t.rows ≠ []
 committed : t.committed ≤ t.rows.length
 anchor : ∀ a, t.anchor = some a → a.row < t.rows.length
 /-- The heights that are there are those of the first rows. -/
 heights : t.heights <+: t.sizes p
 measured : ∀ key, t.measured = some key → key = (t.width, t.look.tones, t.look.classic)

/-- A top in range, no further down than the last one. -/
def InRange (p : Presenter Row Line) (t : Transcript Row) (anchor : Option Anchor) : Prop :=
 ∀ a, anchor = some a → Within (t.sizes p) a.place ∧ flat (t.sizes p) a.place ≤ t.bottom p

/-- What holds from a resize to the next change of the rows. -/
structure Fresh (p : Presenter Row Line) (t : Transcript Row) : Prop where
 height : 0 < t.height
 heights : t.heights = t.sizes p
 anchor : t.InRange p t.anchor

/-- An operation that moves the top alone: the top in range stays in range, and is then on
the line given. -/
def Moves (p : Presenter Row Line) (t : Transcript Row) (result : Option (Transcript Row))
 (line : Nat → Prop) : Prop :=
 ∃ anchor, result = some { t with anchor := anchor }
  ∧ (∀ a, anchor = some a → a.row < t.rows.length)
  ∧ (t.Fresh p → t.InRange p anchor ∧ line (Transcript.start p { t with anchor := anchor }))

theorem Kept.top (h : t.Kept p) : ∃ a, t.top p = some a ∧ a.row < t.rows.length
 ∧ (t.Fresh p → Within (t.sizes p) a.place ∧ flat (t.sizes p) a.place = t.start p) := by
 unfold Transcript.top start
 cases hanchor : t.anchor with
 | none =>
  obtain ⟨a, ha, hrow, hspec⟩ := bottomAnchor_spec (p := p) h.rows
  exact ⟨a, ha, hrow, fun hf => hspec hf.height⟩
 | some anchor => exact ⟨anchor, rfl, h.anchor _ hanchor, fun hf => ⟨(hf.anchor _ hanchor).1, rfl⟩⟩

theorem Fresh.start_le (h : t.Fresh p) : t.start p ≤ t.bottom p := by
 unfold start
 cases hanchor : t.anchor with
 | none => exact Nat.le_refl _
 | some anchor => exact (h.anchor _ hanchor).2

variable (anchor : Option Anchor)

theorem bottomFrom_anchor (index need : Nat) :
 bottomFrom p { t with anchor := anchor } index need = t.bottomFrom p index need := by
 induction index generalizing need with
 | zero => rfl
 | succ index ih =>
  rw [bottomFrom, bottomFrom]
  simp only [ih]
  rfl

theorem bottomAnchor_anchor : bottomAnchor p { t with anchor := anchor } = t.bottomAnchor p :=
 bottomFrom_anchor anchor _ _

/-- **Settling** on an anchor in range of its row. -/
theorem settle_spec (hne : t.rows ≠ []) (a : Anchor) (hrow : a.row < t.rows.length) :
 ∃ anchor, settle p { t with anchor := some a } = some { t with anchor := anchor }
  ∧ (∀ x, anchor = some x → x.row < t.rows.length)
  ∧ (0 < t.height → Within (t.sizes p) a.place →
   (∀ x, anchor = some x → x = a ∧ flat (t.sizes p) x.place < t.bottom p)
    ∧ Transcript.start p { t with anchor := anchor }
     = min (flat (t.sizes p) a.place) (t.bottom p)) := by
 obtain ⟨b, hb, -, hspec⟩ := bottomAnchor_spec (p := p) hne
 have hb' := (bottomAnchor_anchor (some a)).trans hb
 by_cases hle : Le b.place a.place
 · refine ⟨none, ?_, fun x hx => absurd hx (by simp), fun hh hw => ⟨fun x hx => ?_, ?_⟩⟩
   · rw [settle]
     simp only [hb', bind_eq_bind, bind_some, if_pos hle, follow]
   · simp at hx
   · obtain ⟨hbw, hbf⟩ := hspec hh
     rw [hbw.le_iff hw, hbf] at hle
     rw [Nat.min_eq_right hle]
     rfl
 · refine ⟨some a, ?_, fun x hx => some.inj hx ▸ hrow, fun hh hw => ?_⟩
   · rw [settle]
     simp only [hb', bind_eq_bind, bind_some, if_neg hle]
   · obtain ⟨hbw, hbf⟩ := hspec hh
     rw [hbw.le_iff hw, hbf, Nat.not_le] at hle
     refine ⟨fun x hx => ?_, ?_⟩
     · cases hx
       exact ⟨rfl, hle⟩
     · rw [Nat.min_eq_left (Nat.le_of_lt hle)]
       rfl

/-! ## The operations -/

theorem Moves.of_settle (h : t.Kept p) (a : Anchor) (hrow : a.row < t.rows.length)
 (hw : t.Fresh p → Within (t.sizes p) a.place) :
 t.Moves p (settle p { t with anchor := some a })
  (· = min (flat (t.sizes p) a.place) (t.bottom p)) := by
 obtain ⟨anchor, hs, hlt, hspec⟩ := settle_spec (p := p) h.rows a hrow
 refine ⟨anchor, hs, hlt, fun hf => ?_⟩
 obtain ⟨hkeep, hstart⟩ := hspec hf.height (hw hf)
 refine ⟨fun x hx => ?_, hstart⟩
 obtain ⟨rfl, hlast⟩ := hkeep x hx
 exact ⟨hw hf, Nat.le_of_lt hlast⟩

theorem Moves.of_follow (t : Transcript Row) : t.Moves p (some t.follow) (· = t.bottom p) :=
 ⟨none, rfl, fun _ ha => absurd ha (by simp), fun _ => ⟨fun _ ha => absurd ha (by simp), rfl⟩⟩

theorem Moves.scrollUp (h : t.Kept p) (n : Nat) :
 t.Moves p (t.scrollUp p n) (· = t.start p - n) := by
 obtain ⟨top, htop, hrow, hfresh⟩ := h.top
 obtain ⟨a, ha, har, hflat, hwithin⟩ := upFrom_spec (p := p) h.rows top.row top.line n hrow
 refine ⟨some a, ?_, fun x hx => some.inj hx ▸ har, fun hf => ?_⟩
 · rw [Transcript.scrollUp, htop]
   simp only [bind_eq_bind, bind_some, ha]
 · obtain ⟨⟨size, hs, hl⟩, hstart⟩ := hfresh hf
   have hline : flat (t.sizes p) a.place = t.start p - n := by rw [hflat, ← hstart]; rfl
   refine ⟨fun x hx => ?_, hline⟩
   cases hx
   refine ⟨hwithin ⟨size, hs, Or.inl hl⟩, ?_⟩
   have := hf.start_le
   omega

theorem Moves.scrollDown (h : t.Kept p) (n : Nat) :
 t.Moves p (t.scrollDown p n) (· = min (t.start p + n) (t.bottom p)) := by
 unfold Transcript.scrollDown
 cases hanchor : t.anchor with
 | none =>
  have hself : t = { t with anchor := none } := by rw [← hanchor]
  refine ⟨none, congrArg some hself, fun _ ha => absurd ha (by simp), fun _ => ⟨?_, ?_⟩⟩
  · exact fun _ ha => absurd ha (by simp)
  · show t.bottom p = _
    rw [start, hanchor]
    simp only
    omega
 | some x =>
  obtain ⟨b, hb, -, hspec⟩ := bottomAnchor_spec (p := p) h.rows
  have hx := h.anchor x hanchor
  obtain ⟨a, ha, hflat, hwhere⟩ := downFrom_spec (p := p) (t := t) (t.rows.length - x.row) x.row
   (x.line + n) (by omega)
  have hstart : flat (t.sizes p) a.place = t.start p + n := by
   rw [hflat, start, hanchor]
   simp only [flat, Anchor.place]
   omega
  simp only [hb, ha, bind_eq_bind, bind_some]
  by_cases hpast : t.rows.length ≤ a.row ∨ Le b.place a.place
  · refine ⟨none, by rw [if_pos hpast], fun _ ha => absurd ha (by simp), fun hf => ⟨?_, ?_⟩⟩
    · exact fun _ ha => absurd ha (by simp)
    -- past the bottom, the line sought is no smaller than the last top's
    show t.bottom p = _
    have hle : t.bottom p ≤ flat (t.sizes p) a.place := by
     obtain ⟨hbw, hbf⟩ := hspec hf.height
     rcases hwhere with hend | hwithin
     · have hall : (t.sizes p).take a.row = t.sizes p := by
        rw [hend, ← length_counts (p := p) t.rows t.width t.look, take_length]
       rw [flat, show a.place.1 = a.row from rfl, hall, bottom]
       omega
     · rcases hpast with hrow | hle
       · have hlt := hwithin.row_lt
         rw [length_counts] at hlt
         exact absurd hlt (Nat.not_lt.mpr hrow)
       · rwa [hbw.le_iff hwithin, hbf] at hle
    omega
  have hrow : a.row < t.rows.length := Nat.lt_of_not_le fun hrow => hpast (Or.inl hrow)
  refine ⟨some a, by rw [if_neg hpast], fun x hx => some.inj hx ▸ hrow, fun hf => ?_⟩
  obtain ⟨hbw, hbf⟩ := hspec hf.height
  have hwithin := hwhere.resolve_left (Nat.ne_of_lt hrow)
  have hlt : flat (t.sizes p) a.place < t.bottom p := by
   rw [← hbf, ← Nat.not_le, ← hbw.le_iff hwithin]
   exact fun hle => hpast (Or.inr hle)
  refine ⟨fun x hx => ?_, ?_⟩
  · cases hx
    exact ⟨hwithin, Nat.le_of_lt hlt⟩
  · show flat (t.sizes p) a.place = _
    omega

theorem Moves.toStart (h : t.Kept p) : t.Moves p (t.toStart p) fun _ => True := by
 obtain ⟨b, hb, -, -⟩ := bottomAnchor_spec (p := p) h.rows
 refine ⟨if b = {} then none else some {}, ?_, fun a ha => ?_, fun _ => ⟨fun a ha => ?_, trivial⟩⟩
 · rw [Transcript.toStart, hb]
   rfl
 · split at ha
   · simp at ha
   · cases ha
     exact length_pos_iff.mpr h.rows
 · split at ha
   · simp at ha
   · cases ha
     refine ⟨within_start h.rows, ?_⟩
     rw [show Anchor.place {} = (0, 0) from rfl, Blocks.flat_start]
     exact Nat.zero_le _

theorem findPrompt_spec (sought : Anchor → Bool) (indices : List Nat)
 (hin : ∀ index ∈ indices, index < t.rows.length) :
 ∃ target, t.findPrompt p sought indices = some target
  ∧ ∀ a, target = some a → a.row < t.rows.length ∧ Within (t.sizes p) a.place := by
 induction indices with
 | nil => exact ⟨none, rfl, fun a ha => absurd ha (by simp)⟩
 | cons index rest ih =>
  have hrest := ih fun i hi => hin i (mem_cons_of_mem _ hi)
  have hlt := hin index (mem_cons_self ..)
  have hrow := getElem?_eq_getElem hlt
  obtain ⟨before, hbefore⟩ : ∃ before, previous t.rows index = some before := by
   cases index with
   | zero => exact ⟨none, rfl⟩
   | succ i =>
    exact ⟨_, by rw [previous, getElem?_eq_getElem (Nat.lt_of_succ_lt hlt),
     map_some]⟩
  rw [findPrompt, hrow]
  simp only [bind_eq_bind, bind_some, promptLine, hrow, hbefore]
  split
  · split
    · refine ⟨_, rfl, fun a ha => ?_⟩
      cases ha
      obtain ⟨count, -, hsize⟩ := count_some (p := p) hlt
      exact ⟨hlt, count, hsize, opening_lt hrow hbefore hsize⟩
    · exact hrest
  · exact hrest

theorem Moves.weaken {result : Option (Transcript Row)} {line line' : Nat → Prop}
 (h : t.Moves p result line) (hl : ∀ n, line n → line' n) : t.Moves p result line' := by
 obtain ⟨anchor, hr, hrow, hspec⟩ := h
 exact ⟨anchor, hr, hrow, fun hf => ⟨(hspec hf).1, hl _ (hspec hf).2⟩⟩

theorem Moves.previousPrompt (h : t.Kept p) : t.Moves p (t.previousPrompt p) fun _ => True := by
 obtain ⟨top, htop, -, -⟩ := h.top
 obtain ⟨target, ht, hspec⟩ := findPrompt_spec (p := p) (t := t)
  (fun a => decide ¬ Le top.place a.place) (List.range t.rows.length).reverse
  (by simp)
 rw [Transcript.previousPrompt, htop]
 simp only [bind_eq_bind, bind_some, ht]
 cases target with
 | none => exact Moves.toStart h
 | some a =>
  obtain ⟨hrow, hw⟩ := hspec a rfl
  exact (Moves.of_settle h a hrow fun _ => hw).weaken fun _ _ => trivial

theorem Moves.nextPrompt (h : t.Kept p) : t.Moves p (t.nextPrompt p) fun _ => True := by
 obtain ⟨top, htop, -, -⟩ := h.top
 obtain ⟨target, ht, hspec⟩ := findPrompt_spec (p := p) (t := t)
  (fun a => decide ¬ Le a.place top.place) (List.range t.rows.length) (by simp)
 rw [Transcript.nextPrompt, htop]
 simp only [bind_eq_bind, bind_some, ht]
 cases target with
 | none => exact (Moves.of_follow t).weaken fun _ _ => trivial
 | some a =>
  obtain ⟨hrow, hw⟩ := hspec a rfl
  exact (Moves.of_settle h a hrow fun _ => hw).weaken fun _ _ => trivial

theorem Moves.jump (h : t.Kept p) (hf : t.Fresh p) (offset : Nat) :
 t.Moves p (t.jump p offset) (· = min offset (t.bottom p)) := by
 obtain ⟨a, ha⟩ : ∃ a, jumpFrom t.heights 0 offset {} = a := ⟨_, rfl⟩
 have hspec := @jumpFrom_spec (t.sizes p) 0 offset _ {} rfl rfl (Nat.zero_le _)
 rw [drop_zero, ← hf.heights, ha, hf.heights, take_zero, sum_nil,
  Nat.zero_add, length_counts] at hspec
 simp only [Transcript.jump, ha]
 by_cases hlt : offset < (t.sizes p).sum
 · obtain ⟨hw, hflat⟩ := hspec.1 hlt
   have hrow : a.row < t.rows.length := by
    have h := hw.row_lt
    rwa [length_counts] at h
   rw [if_neg (Nat.not_le.mpr hrow), ← hflat]
   exact Moves.of_settle h a hrow fun _ => hw
 · have hend := hspec.2 (Nat.le_of_not_lt hlt)
   rw [if_pos (Nat.le_of_eq hend.symm)]
   refine (Moves.of_follow t).weaken ?_
   rintro _ rfl
   rw [bottom]
   omega

end Transcript

end Bake.Tui
