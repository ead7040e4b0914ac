import Bake.Json.Denotes

/-!
# The reader leaves what a text denotes

By induction on the derivation of a meaning. Inside a skipped container the loop leaves
nothing of what it reads; elsewhere it hands the value and what is kept below it to the
frame the value stands in, so what the statement says of a frame is what its elements or
members so far denote.
-/

open List

namespace Bake.Json

namespace Parser

/-! ## Skipped containers -/

variable {p q : Parser} {k : Kind} {ks : List Kind} {rest w : List Char}
 {members : List (List StrUnit × Value × Node)} {outer : List Frame}

theorem attach_dropped (h : p.skipped ≠ []) (v : Value) (n : Node) : p.attach v n = p := by
 unfold attach
 rw [if_pos h]

theorem pending_skipped (h : p.skipped ≠ []) (key : String) (canonical : Option (List Char)) :
 p.pending key canonical = p := by
 unfold pending
 rw [if_pos h]

theorem openContainer_skipped (h : p.skipped ≠ []) (k : Kind) :
 p.openContainer k = { p with rest := p.rest.tail, skipped := k :: p.skipped } := by
 simp only [openContainer]
 rw [if_pos (.inl h), if_neg h]

theorem close_skipped (h : p.skipped = k :: ks) (hks : ks ≠ []) :
 p.close = some { p with skipped := ks } := by
 unfold close
 rw [h]
 dsimp only
 rw [if_neg hks]

theorem result_token (hw : IsValue w) (hr : p.rest = w ++ rest) (hv : p.value = some (false, q)) :
 p.result true = q.result false := by
 obtain ⟨c, t, rfl, hc, -⟩ := hw.head
 exact result_next (turn_value (t := t ++ rest) hr hc hv)

theorem memberKey_reads {k t : List Char} {units : List StrUnit} (hk : KeyReads k units)
 (hr : p.rest = k ++ t) :
 p.memberKey = some (({ p with rest := t } : Parser).pending (unitsValue units)
  (if unitsLossy units then some (canonicalString units) else none)) := by
 obtain ⟨a, body, b, ha, hbody, hb, rfl⟩ := hk
 have hskip : skipWhitespace p.rest = '"' :: (body ++ '"' :: (b ++ ':' :: t)) := by
  rw [hr, append_assoc, skipWhitespace_append ha]
  simp only [cons_append, append_assoc, nil_append]
  rw [skipWhitespace_cons (by decide)]
 have hcol : skipWhitespace (b ++ ':' :: t) = ':' :: t := by
  rw [skipWhitespace_append hb, skipWhitespace_cons (by decide)]
 have hs : string ('"' :: (body ++ '"' :: (b ++ ':' :: t)))
  = some ((unitsValue units, if unitsLossy units then some (canonicalString units) else none),
   b ++ ':' :: t) := by
  rw [string, tail_cons, hbody, Option.map_some]
 unfold memberKey
 dsimp only
 rw [hskip, if_neg (by simp), hs]
 simp only [hcol]

/-- The loop reads what `n` derives inside a skipped container, and leaves nothing of it. -/
def Skips : Nonterminal → List Char → Prop
 | .value, w => ∀ (p : Parser) rest, p.skipped ≠ [] → NumberEnds rest → p.rest = w ++ rest →
  p.result true = ({ p with rest } : Parser).result false
 | .elements, w => ∀ (p : Parser) rest ks, p.skipped = .array :: ks → NumberEnds rest →
  p.rest = w ++ rest → p.result true = ({ p with rest } : Parser).result false
 | .members, w => ∀ (p : Parser) rest ks, p.skipped = .object :: ks → NumberEnds rest →
  p.rest = w ++ rest →
  ∃ q, p.memberKey = some q ∧ q.result true = ({ p with rest } : Parser).result false

theorem shape_skipped (h : p.skipped = k :: ks) :
 p.shape = k :: (ks ++ p.stack.map Frame.kind) := by
 rw [shape, h]
 rfl

theorem Skips.spaced {a b : List Char} (hw : Skips .value w) (ha : Ws a) (hb : Ws b)
 (hp : p.skipped ≠ []) (hrest : NumberEnds rest) (hr : p.rest = a ++ (w ++ (b ++ rest))) :
 p.result true = ({ p with rest } : Parser).result false := by
 rw [result_ws ha hr,
  hw { p with rest := w ++ (b ++ rest) } (b ++ rest) hp (numberEnds_ws hb hrest) rfl]
 exact result_ws hb rfl

theorem memberKey_skipped {k t : List Char} (hp : p.skipped ≠ []) (hk : IsKey k)
 (hr : p.rest = k ++ t) : p.memberKey = some { p with rest := t } := by
 obtain ⟨units, hunits⟩ := hk.reads
 rw [memberKey_reads hunits hr]
 exact congrArg some (pending_skipped (p := { p with rest := t }) hp _ _)

theorem skips_array (hd : Derives .elements w) (ih : Skips .elements w)
 (hr : p.rest = '[' :: (w ++ ']' :: rest)) (hks : (p.openContainer .array).skipped = .array :: ks)
 (hq : ({ p.openContainer .array with rest } : Parser).close = some q) :
 p.result true = q.result false := by
 have hopen : (p.openContainer .array).rest = w ++ (']' :: rest) := by
  rw [openContainer_rest, hr]
  rfl
 rw [result_array hd hr, ih _ _ _ hks (numberEnds_cons (by decide)) hopen]
 exact result_closing (k := .array) rfl (shape_skipped hks) hq

theorem skips_object (hd : Derives .members w) (ih : Skips .members w)
 (hr : p.rest = '{' :: (w ++ '}' :: rest))
 (hks : (p.openContainer .object).skipped = .object :: ks)
 (hq : ({ p.openContainer .object with rest } : Parser).close = some q) :
 p.result true = q.result false := by
 have hopen : (p.openContainer .object).rest = w ++ ('}' :: rest) := by
  rw [openContainer_rest, hr]
  rfl
 obtain ⟨q1, hq1, hres⟩ := ih _ _ _ hks (numberEnds_cons (by decide)) hopen
 rw [result_object hd hr hq1, hres]
 exact result_closing (k := .object) rfl (shape_skipped hks) hq

/-- **A skipped container drops what is read inside it.** -/
theorem skips_of_derives {n : Nonterminal} (h : Derives n w) : Skips n w := by
 -- opening and closing inside a skipped container leave the cursor behind it
 have hclose : ∀ {p : Parser} (k : Kind) (rest : List Char), p.skipped ≠ [] →
  (p.openContainer k).skipped = k :: p.skipped
   ∧ ({ p.openContainer k with rest } : Parser).close = some { p with rest } := by
  intro p k rest hp
  rw [openContainer_skipped hp]
  exact ⟨rfl, close_skipped (p := { p with rest, skipped := k :: p.skipped }) rfl hp⟩
 induction h with
 | @literal w h =>
  intro p rest hp hrest hr
  obtain ⟨v, hv⟩ : ∃ v, (w, v) ∈ [("true".toList, Value.bool true),
   ("false".toList, .bool false), ("null".toList, .null)] := by
   simp only [mem_cons, not_mem_nil, or_false] at h
   rcases h with rfl | rfl | rfl
   · exact ⟨.bool true, by simp⟩
   · exact ⟨.bool false, by simp⟩
   · exact ⟨.null, by simp⟩
  have hval := value_literal hv hr
  rw [attach_dropped (p := { p with rest }) hp] at hval
  exact result_token (.literal h) hr hval
 | number h =>
  intro p rest hp hrest hr
  have hval := value_number h hrest hr
  rw [attach_dropped (p := { p with rest }) hp] at hval
  exact result_token (.number h) hr hval
 | string h =>
  intro p rest hp hrest hr
  obtain ⟨⟨text, canonical⟩, hs⟩ := string_complete h rest
  have hstr := h
  obtain ⟨body, -, rfl⟩ := h
  have hval := @value_string p _ rest text canonical hr (hr ▸ hs)
  rw [attach_dropped (p := { p with rest }) hp] at hval
  exact result_token (.string hstr) hr hval
 | empty k hs =>
  intro p rest hp hrest hr
  exact result_empty hs (by rw [hr]; simp) (hclose k rest hp).2
 | array hd ih =>
  intro p rest hp hrest hr
  exact skips_array hd ih (by rw [hr]; simp) (hclose .array rest hp).1 (hclose .array rest hp).2
 | object hd ih =>
  intro p rest hp hrest hr
  exact skips_object hd ih (by rw [hr]; simp) (hclose .object rest hp).1
   (hclose .object rest hp).2
 | element ha _ hb ih =>
  intro p rest ks hks hrest hr
  exact ih.spaced ha hb (by simp [hks]) hrest (by rw [hr]; simp)
 | @elements ws a w b _ ha _ hb ihw ihv =>
  intro p rest ks hks hrest hr
  rw [ihw p (',' :: (a ++ (w ++ (b ++ rest)))) ks hks (numberEnds_cons (by decide))
   (by rw [hr]; simp)]
  rw [result_comma (p := { p with rest := ',' :: (a ++ (w ++ (b ++ rest))) }) rfl
   (shape_skipped hks)]
  exact ihv.spaced ha hb (p := { p with rest := a ++ (w ++ (b ++ rest)) }) (by simp [hks]) hrest rfl
 | @member k a w b hk ha _ hb ih =>
  intro p rest ks hks hrest hr
  have hp : p.skipped ≠ [] := by simp [hks]
  refine ⟨_, memberKey_skipped (t := a ++ (w ++ (b ++ rest))) hp hk (by rw [hr]; simp), ?_⟩
  exact ih.spaced ha hb (p := { p with rest := a ++ (w ++ (b ++ rest)) }) hp hrest rfl
 | @members ws k a w b _ hk ha _ hb ihw ihv =>
  intro p rest ks hks hrest hr
  have hp : p.skipped ≠ [] := by simp [hks]
  obtain ⟨q, hq, hres⟩ := ihw p (',' :: (k ++ (a ++ (w ++ (b ++ rest))))) ks hks
   (numberEnds_cons (by decide)) (by rw [hr]; simp)
  refine ⟨q, hq, ?_⟩
  rw [hres, result_commaKey (p := { p with rest := ',' :: (k ++ (a ++ (w ++ (b ++ rest)))) }) rfl
   (shape_skipped hks) (memberKey_skipped
    (p := { p with rest := k ++ (a ++ (w ++ (b ++ rest))) }) hp hk rfl)]
  exact ihv.spaced ha hb (p := { p with rest := a ++ (w ++ (b ++ rest)) }) hp hrest rfl

theorem result_skipping {s : List Char} (hv : IsValue (opening k :: s))
 (hr : p.rest = opening k :: s ++ rest) (hks : (p.openContainer k).skipped = k :: ks)
 (hq : ({ p.openContainer k with rest } : Parser).close = some q) :
 p.result true = q.result false := by
 generalize hw : opening k :: s = w at hv
 rw [hw] at hr
 cases hv with
 | literal h =>
  rw [← hw] at h
  cases k <;> simp [opening] at h
 | number h =>
  obtain ⟨c, t, rfl, hc⟩ := isNumber_head h
  have := numberHead_ne hc
  injection hw with hw _
  cases k with
  | array => exact absurd hw.symm this.2.1
  | object => exact absurd hw.symm this.2.2.1
 | string h =>
  obtain ⟨body, -, rfl⟩ := h
  injection hw with hw _
  cases k <;> exact absurd hw (by decide)
 | empty k' hs =>
  injection hw with hk _
  obtain rfl : k = k' := by cases k <;> cases k' <;> first | rfl | exact absurd hk (by decide)
  exact result_empty hs (by rw [hr]; simp) hq
 | array hd =>
  injection hw with hk _
  obtain rfl : k = .array := by cases k <;> first | rfl | exact absurd hk (by decide)
  exact skips_array hd (skips_of_derives hd) (by rw [hr]; simp) hks hq
 | object hd =>
  injection hw with hk _
  obtain rfl : k = .object := by cases k <;> first | rfl | exact absurd hk (by decide)
  exact skips_object hd (skips_of_derives hd) (by rw [hr]; simp) hks hq

/-! ## Frames -/

/-- The frame of an array whose items so far are `items`. -/
def arrayFrame (items : List (Value × Node)) : Frame :=
 .array (items.map Prod.fst) (arrayNode items)

section Object

variable (start : List Char) (members : List (List StrUnit × Value × Node))

/-- What is kept of the members so far, while their object is open. -/
def openNode : Node := .mk none (memberKeyTexts members) (memberNodes members) []

/-- The frame of an object whose members so far are `members`. -/
def objectFrame : Frame :=
 .object (memberMap members) "" none start (lossyKeys members) (openNode members)

def keyFrame (units : List StrUnit) : Frame := .object (memberMap members) (unitsValue units)
  (if unitsLossy units then some (canonicalString units) else none) start
  (lossyKeys members || unitsLossy units) (openNode members)

end Object

theorem heldItems_snoc (items : List (Value × Node)) (v : Value) (n : Node) :
 heldItems (items ++ [(v, n)])
  = heldItems items ++ if n.isEmpty then [] else [(items.length, n)] := by
 simp only [heldItems, zipIdx_append, filter_append, map_append, Nat.zero_add, zipIdx_singleton]
 cases h : n.isEmpty <;> simp [h]

theorem attach_array {p : Parser} {items : List (Value × Node)} {outer : List Frame}
 (hp : p.skipped = []) (hst : p.stack = arrayFrame items :: outer) (v : Value) (n : Node) :
 p.attach v n = { p with stack := arrayFrame (items ++ [(v, n)]) :: outer } := by
 unfold attach
 rw [if_neg (by simp [hp]), hst]
 simp only [arrayFrame, arrayNode, heldItems_snoc, map_append, length_map]
 cases n.isEmpty
 · rfl
 · simp only [if_true, append_nil]
   rfl

theorem pending_object {start : List Char} (hp : p.skipped = [])
 (hst : p.stack = objectFrame start members :: outer) (units : List StrUnit) :
 p.pending (unitsValue units) (if unitsLossy units then some (canonicalString units) else none)
  = { p with stack := keyFrame start members units :: outer } := by
 unfold pending
 rw [if_neg (by simp [hp]), hst]
 simp only [objectFrame, keyFrame]
 cases unitsLossy units <;> rfl

theorem attach_object {p : Parser} {start : List Char}
 {members : List (List StrUnit × Value × Node)} {units : List StrUnit} {outer : List Frame}
 (hp : p.skipped = []) (hst : p.stack = keyFrame start members units :: outer) (v : Value)
 (n : Node) :
 p.attach v n = { p with stack := objectFrame start (members ++ [(units, v, n)]) :: outer } := by
 unfold attach
 rw [if_neg (by simp [hp]), hst]
 simp only [objectFrame, keyFrame, openNode, memberMap, memberKeyTexts, memberNodes, lossyKeys,
  foldl_append, foldl_cons, foldl_nil, any_append, any_cons,
  any_nil, Bool.or_false]
 cases unitsLossy units <;> rfl

/-! ## Values -/

/-- The reader with `rest` left; a container was skipped from `mark` on, if any was. -/
def behind (p : Parser) (rest mark : List Char) : Parser := { p with rest, skipStart := mark }

/-- The loop leaves of a text what it denotes: a value is attached, elements and members
are in their frame. -/
def Leaves (d : Nat) (w : List Char) : Meaning → Prop
 | .value v n => ∀ (p : Parser) rest, p.skipped = [] → p.stack.length + p.baseDepth = d →
  NumberEnds rest → p.rest = w ++ rest →
  ∃ mark, p.result true = ((p.behind rest mark).attach v n).result false
 | .elements items => ∀ (p : Parser) rest outer, p.skipped = [] →
  p.stack = arrayFrame [] :: outer → p.stack.length + p.baseDepth = d → NumberEnds rest →
  p.rest = w ++ rest →
  ∃ mark, p.result true
   = ({ p.behind rest mark with stack := arrayFrame items :: outer } : Parser).result false
 | .members members => ∀ (p : Parser) rest start outer, p.skipped = [] →
  p.stack = objectFrame start [] :: outer → p.stack.length + p.baseDepth = d →
  NumberEnds rest → p.rest = w ++ rest →
  ∃ q mark, p.memberKey = some q ∧ q.result true
   = ({ p.behind rest mark with stack := objectFrame start members :: outer } : Parser).result false

theorem attach_cursor (p : Parser) (v : Value) (n : Node) (rest : List Char) :
 ({ p.attach v n with rest } : Parser) = ({ p with rest } : Parser).attach v n := by
 unfold attach
 dsimp only
 split
 · rfl
 · split <;> rfl

theorem Leaves.spaced {d : Nat} {a b : List Char} {v : Value} {n : Node}
 (hw : Leaves d w (.value v n)) (ha : Ws a) (hb : Ws b) (hp : p.skipped = [])
 (hd : p.stack.length + p.baseDepth = d) (hrest : NumberEnds rest)
 (hr : p.rest = a ++ (w ++ (b ++ rest))) :
 ∃ mark, p.result true = ((p.behind rest mark).attach v n).result false := by
 obtain ⟨mark, hres⟩ :=
  hw { p with rest := w ++ (b ++ rest) } (b ++ rest) hp hd (numberEnds_ws hb hrest) rfl
 refine ⟨mark, ?_⟩
 rw [result_ws ha hr, hres, result_ws (a := b) (t := rest) hb (by rw [attach_rest]; rfl),
  attach_cursor]
 rfl

theorem leaves_token {d : Nat} {v : Value} {n : Node} (hw : IsValue w)
 (hv : ∀ (p : Parser) rest, p.skipped = [] → NumberEnds rest → p.rest = w ++ rest →
  p.value = some (false, ({ p with rest } : Parser).attach v n)) : Leaves d w (.value v n) := by
 intro p rest hp _ hrest hr
 exact ⟨p.skipStart, result_token hw hr (hv p rest hp hrest hr)⟩

theorem leaves_deep {d : Nat} {s : List Char} (hd : maxHeldDepth ≤ d)
 (hv : IsValue (opening k :: s)) :
 Leaves d (opening k :: s) (.value .null (.mk (some (.deep (opening k :: s))) [] [] [])) := by
 intro p rest hp hdepth hrest hr
 have hopen : p.openContainer k
  = { p with rest := p.rest.tail, skipStart := p.rest, skipped := [k] } := by
  simp only [openContainer]
  rw [if_pos (.inr (by omega)), if_pos hp, hp]
 have hks : (p.openContainer k).skipped = [k] := by rw [hopen]
 refine ⟨p.rest, result_skipping hv hr hks ?_⟩
 rw [hopen]
 unfold close
 dsimp only
 rw [if_pos rfl]
 have hslice : slice p.rest rest = opening k :: s := by rw [hr, slice_append]
 rw [hslice, behind, hp]

theorem openContainer_array (hp : p.skipped = [])
 (hd : p.stack.length + p.baseDepth < maxHeldDepth) :
 p.openContainer .array = { p with rest := p.rest.tail, stack := arrayFrame [] :: p.stack } := by
 simp only [openContainer]
 rw [if_neg (by simp only [not_or, not_not]; exact ⟨hp, by omega⟩)]
 rfl

theorem openContainer_object (hp : p.skipped = [])
 (hd : p.stack.length + p.baseDepth < maxHeldDepth) :
 p.openContainer .object
  = { p with rest := p.rest.tail, stack := objectFrame p.rest [] :: p.stack } := by
 simp only [openContainer]
 rw [if_neg (by simp only [not_or, not_not]; exact ⟨hp, by omega⟩)]
 rfl

theorem close_array {items : List (Value × Node)} (hp : p.skipped = [])
 (hst : p.stack = arrayFrame items :: outer) :
 p.close = some (({ p with stack := outer } : Parser).attach (.array (items.map Prod.fst))
  (arrayNode items)) := by
 unfold close
 rw [hp, hst]
 rfl

theorem close_object {start : List Char} (hp : p.skipped = [])
 (hst : p.stack = objectFrame start members :: outer) :
 p.close = some (({ p with stack := outer } : Parser).attach (.object (memberMap members))
  (objectNode members (slice start p.rest) (outer.length + p.baseDepth))) := by
 unfold close
 rw [hp, hst]
 simp only [objectFrame, objectNode]
 cases lossyKeys members <;> rfl

/-- **The loop leaves of a text what it denotes.** -/
theorem leaves_of_denotes {d : Nat} {m : Meaning} (h : Denotes d w m) : Leaves d w m := by
 induction h with
 | number d h => exact leaves_token (.number h) fun p rest _ hrest hr => value_number h hrest hr
 | @string d body units hb =>
  refine leaves_token (.string hb.isString) fun p rest hp _ hr => ?_
  have hs : string p.rest = some ((unitsValue units,
   if unitsLossy units then some (canonicalString units) else none), rest) := by
   rw [hr, string, cons_append, tail_cons, append_assoc]
   exact congrArg (Option.map _) (hb rest)
  have hnode : p.stringNode (unitsValue units)
   (if unitsLossy units then some (canonicalString units) else none) = unitsNode units := by
   unfold stringNode unitsNode
   cases unitsLossy units
   · rfl
   · exact if_pos hp
  rw [value_string hr hs, hnode]
 | deep hd hv => exact leaves_deep hd hv
 | @emptyArray d s hd hs =>
  intro p rest hp hdepth hrest hr
  refine ⟨p.skipStart, @result_empty p _ .array s rest hs (by rw [hr]; simp [opening, closing]) ?_⟩
  rw [openContainer_array hp (by omega)]
  exact close_array (p := { p with rest, stack := arrayFrame [] :: p.stack }) hp rfl
 | @emptyObject d s hd hs =>
  intro p rest hp hdepth hrest hr
  refine ⟨p.skipStart, @result_empty p _ .object s rest hs (by rw [hr]; simp [opening, closing]) ?_⟩
  rw [openContainer_object hp (by omega)]
  exact close_object (p := { p with rest, stack := objectFrame p.rest [] :: p.stack }) hp rfl
 | @array d w items hd hden ih =>
  intro p rest hp hdepth hrest hr
  have hopen := openContainer_array hp (by omega)
  obtain ⟨mark, hres⟩ := ih (p.openContainer .array) (']' :: rest) p.stack
   (by rw [hopen]; exact hp) (by rw [hopen]) (by rw [hopen, length_cons]; dsimp only; omega)
   (numberEnds_cons (by decide)) (by rw [openContainer_rest, hr]; simp)
  refine ⟨mark, ?_⟩
  rw [@result_array p w rest hden.derives (by rw [hr]; simp), hres, hopen]
  refine result_closing (k := .array) (S := p.shape) rfl ?_ ?_
  · simp [shape, behind, hp, arrayFrame, Frame.kind]
  · exact close_array hp rfl
 | @object d w members hd hden ih =>
  intro p rest hp hdepth hrest hr
  have hopen := openContainer_object hp (by omega)
  obtain ⟨q, mark, hq, hres⟩ := ih (p.openContainer .object) ('}' :: rest) p.rest p.stack
   (by rw [hopen]; exact hp) (by rw [hopen]) (by rw [hopen, length_cons]; dsimp only; omega)
   (numberEnds_cons (by decide)) (by rw [openContainer_rest, hr]; simp)
  refine ⟨mark, ?_⟩
  rw [@result_object p q w rest hden.derives (by rw [hr]; simp) hq, hres, hopen]
  refine result_closing (k := .object) (S := p.shape) rfl ?_ ?_
  · simp [shape, behind, hp, objectFrame, Frame.kind]
  · have hslice : slice p.rest rest = '{' :: (w ++ ['}']) := by rw [hr, slice_append]
    have := close_object (p := { p with
     rest, skipStart := mark, stack := objectFrame p.rest members :: p.stack }) hp rfl
    dsimp only at this
    rw [hslice, hdepth] at this
    exact this
 | @element d a w b v n ha hden hb ih =>
  intro p rest outer hp hst hdepth hrest hr
  obtain ⟨mark, hres⟩ := ih.spaced ha hb hp hdepth hrest (by rw [hr]; simp)
  exact ⟨mark, by rw [hres, attach_array (p := p.behind rest mark) hp hst]; rfl⟩
 | @elements d ws a w b items v n hws ha hden hb ihw ihv =>
  intro p rest outer hp hst hdepth hrest hr
  obtain ⟨mark, hres⟩ := ihw p (',' :: (a ++ (w ++ (b ++ rest)))) outer hp hst hdepth
   (numberEnds_cons (by decide)) (by rw [hr]; simp)
  generalize hp1 : ({ p.behind (',' :: (a ++ (w ++ (b ++ rest)))) mark with
   stack := arrayFrame items :: outer } : Parser) = p1 at hres
  obtain ⟨mark', hres'⟩ := ihv.spaced ha hb (p := { p1 with rest := a ++ (w ++ (b ++ rest)) })
   (by rw [← hp1]; exact hp) (by rw [← hp1, ← hdepth, hst]; rfl) hrest rfl
  refine ⟨mark', ?_⟩
  rw [hres, result_comma (p := p1) (S := outer.map Frame.kind) (by rw [← hp1]; rfl)
   (by rw [← hp1]; simp [shape, behind, hp, arrayFrame, Frame.kind]), hres', ← hp1,
   @attach_array _ items outer]
  · rfl
  · exact hp
  · rfl
 | @member d k a w b units v n hk ha hden hb ih =>
  intro p rest start outer hp hst hdepth hrest hr
  have hkey := memberKey_reads (t := a ++ (w ++ (b ++ rest))) hk (by rw [hr]; simp)
  rw [pending_object (p := { p with rest := a ++ (w ++ (b ++ rest)) }) hp hst] at hkey
  obtain ⟨mark, hres⟩ := ih.spaced ha hb (p := { p with
   rest := a ++ (w ++ (b ++ rest)), stack := keyFrame start [] units :: outer }) hp
   (by rw [← hdepth, hst]; rfl) hrest rfl
  refine ⟨_, mark, hkey, ?_⟩
  rw [hres, @attach_object _ start [] units outer]
  · rfl
  · exact hp
  · rfl
 | @members d ws k a w b members units v n hws hk ha hden hb ihw ihv =>
  intro p rest start outer hp hst hdepth hrest hr
  obtain ⟨q, mark, hq, hres⟩ := ihw p (',' :: (k ++ (a ++ (w ++ (b ++ rest))))) start outer hp hst
   hdepth (numberEnds_cons (by decide)) (by rw [hr]; simp)
  generalize hp1 : ({ p.behind (',' :: (k ++ (a ++ (w ++ (b ++ rest))))) mark with
   stack := objectFrame start members :: outer } : Parser) = p1 at hres
  have hp1s : p1.skipped = [] := by rw [← hp1]; exact hp
  have hp1st : p1.stack = objectFrame start members :: outer := by rw [← hp1]
  have hkey := memberKey_reads (p := { p1 with rest := k ++ (a ++ (w ++ (b ++ rest))) }) hk rfl
  rw [pending_object (p := { p1 with rest := a ++ (w ++ (b ++ rest)) }) hp1s hp1st] at hkey
  obtain ⟨mark', hres'⟩ := ihv.spaced ha hb (p := { p1 with
   rest := a ++ (w ++ (b ++ rest)), stack := keyFrame start members units :: outer }) hp1s
   (by rw [← hp1, ← hdepth, hst]; rfl) hrest rfl
  refine ⟨q, mark', hq, ?_⟩
  rw [hres, result_commaKey (p := p1) (S := outer.map Frame.kind) (by rw [← hp1]; rfl)
   (by rw [← hp1]; simp [shape, behind, hp, objectFrame, Frame.kind]) hkey, hres', ← hp1,
   @attach_object _ start members units outer]
  · rfl
  · exact hp
  · rfl
 | _ =>
  exact leaves_token (.literal (by simp)) fun p rest _ _ hr => value_literal (by simp) hr

end Parser

/-- **A text is read as what it denotes.** -/
theorem parse_of_denotes {d : Nat} {a w b : List Char} {v : Value} {n : Node} (ha : Ws a)
 (hw : Denotes d w (.value v n)) (hb : Ws b) :
 parseAtDepthWithNode (a ++ (w ++ b)) d = some (v, n) := by
 obtain ⟨mark, hres⟩ := (Parser.leaves_of_denotes hw).spaced ha hb
  (p := Parser.start (a ++ (w ++ b)) d) rfl (by simp [Parser.start])
  (show NumberEnds [] from fun c hc => absurd hc (by simp)) (by simp [Parser.start])
 rw [parseAtDepthWithNode, ← Parser.result, hres]
 exact Parser.result_done rfl

theorem denotes_of_parse {d : Nat} {text : List Char} {v : Value} {n : Node}
 (h : parseAtDepthWithNode text d = some (v, n)) :
 ∃ a w b, Ws a ∧ Ws b ∧ text = a ++ (w ++ b) ∧ Denotes d w (.value v n) := by
 obtain ⟨a, w, b, ha, hw, hb, rfl⟩ := (parse_sound h).1
 obtain ⟨v', n', hden⟩ := hw.means d
 rw [parse_of_denotes ha hden hb] at h
 injection h with h
 injection h with hv hn
 exact ⟨a, w, b, ha, hb, rfl, hv ▸ hn ▸ hden⟩

/-- **The reader computes the meaning.** At any depth, what it gives for a text is what the text
denotes, white space around it aside, and exactly the JSON texts denote something. -/
theorem parse_eq_some_iff (text : List Char) (d : Nat) :
 (∀ v n, parseAtDepthWithNode text d = some (v, n) ↔
  ∃ a w b, Ws a ∧ Ws b ∧ text = a ++ (w ++ b) ∧ Denotes d w (.value v n))
 ∧ (IsJson text ↔ ∃ v n, parseAtDepthWithNode text d = some (v, n)) := by
 refine ⟨fun v n => ⟨denotes_of_parse, ?_⟩, fun h => ?_, fun ⟨v, n, h⟩ => (parse_sound h).1⟩
 · rintro ⟨a, w, b, ha, hb, rfl, hden⟩
   exact parse_of_denotes ha hden hb
 · obtain ⟨⟨v, n⟩, h⟩ := Option.isSome_iff_exists.mp (parse_complete h d)
   exact ⟨v, n, h⟩

end Bake.Json
