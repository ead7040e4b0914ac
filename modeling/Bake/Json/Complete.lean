import Bake.Json.Sound

/-!
# What the grammar derives, the reader accepts

By induction on the derivation. The loop keeps its containers on a stack, so the
statement about a value says where the loop stands behind it: the same containers
open, the text behind the value left, and a value no longer expected. Whitespace
in front of a turn never changes it, so a derivation may leave its trailing
whitespace to the next turn.
-/

open List Parser

namespace Bake.Json

namespace Parser

def result (p : Parser) (expectValue : Bool) : Option (Value × Node) :=
 (p.run expectValue).bind root

variable {e : Bool} {p : Parser}

theorem run_fail (h : p.turn e = .fail) : p.run e = none := by
 rw [run]
 split <;> simp_all

theorem run_done (h : p.turn e = .done) : p.run e = some p := by
 rw [run]
 split <;> simp_all

theorem run_next {p' : Parser} {e' : Bool} (h : p.turn e = .next e' p') : p.run e = p'.run e' := by
 rw [run]
 split <;> simp_all

theorem result_next {p' : Parser} {e' : Bool} (h : p.turn e = .next e' p') :
 p.result e = p'.result e' := by
 rw [result, run_next h, result]

theorem result_done (h : p.turn e = .done) : p.result e = p.root := by
 rw [result, run_done h, Option.bind_some]

theorem result_fail (h : p.turn e = .fail) : p.result e = none := by
 rw [result, run_fail h, Option.bind_none]

theorem result_ws {a t : List Char} (ha : Ws a) (hr : p.rest = a ++ t) :
 p.result e = ({ p with rest := t } : Parser).result e := by
 have hturn : p.turn e = ({ p with rest := t } : Parser).turn e := by
  simp only [turn, hr, skipWhitespace_append ha]
 cases ht : p.turn e with
 | fail => rw [result_fail ht, result_fail (hturn ▸ ht)]
 | done => rw [result_done ht, result_done (hturn ▸ ht)]
 | next e' p' => rw [result_next ht, ← result_next (hturn ▸ ht)]

/-! ## What the operations do to the open containers -/

@[simp] theorem attach_shape (p : Parser) (v : Value) (n : Node) :
 (p.attach v n).shape = p.shape := by
 rw [← levels_topKind, attach_levels, levels_topKind]

@[simp] theorem pending_shape (p : Parser) (key : String) (c : Option (List Char)) :
 (p.pending key c).shape = p.shape := by
 rw [← levels_topKind, pending_levels, levels_topKind]

theorem openContainer_shape (p : Parser) (k : Kind) : (p.openContainer k).shape = k :: p.shape := by
 obtain ⟨o, h, -⟩ := p.openContainer_levels k
 rw [← levels_topKind, h, map_cons, levels_topKind]

theorem attach_root_isSome (h : p.shape = []) (v : Value) (n : Node) :
 (p.attach v n).root.isSome := by
 refine attach_isSome ?_
 rw [← levels_topKind, map_eq_nil_iff] at h
 exact h

theorem close_complete {k : Kind} {S : List Kind} (h : p.shape = k :: S) :
 ∃ p', p.close = some p' ∧ p'.shape = S ∧ p'.rest = p.rest ∧ (S = [] → p'.root.isSome) := by
 have key : ∃ p', p.close = some p' ∧ p'.shape = S ∧ (S = [] → p'.root.isSome) := by
  unfold close
  cases hs : p.skipped with
  | cons k' ks =>
   simp only [shape, hs, cons_append, List.cons.injEq] at h
   dsimp only
   split
   next hks =>
    subst hks
    have hsh : ({ p with skipped := [] } : Parser).shape = S := h.2
    exact ⟨_, rfl, (attach_shape ..).trans hsh, fun hS => attach_root_isSome (hsh.trans hS) ..⟩
   next hks =>
    refine ⟨_, rfl, h.2, fun hS => ?_⟩
    rw [hS] at h
    exact absurd (append_eq_nil_iff.mp h.2).1 hks
  | nil =>
   dsimp only
   cases hst : p.stack with
   | nil => simp [shape, hs, hst] at h
   | cons f outer =>
    simp only [shape, hs, hst, nil_append, map_cons, List.cons.injEq] at h
    have hsh : ({ p with skipped := [], stack := outer } : Parser).shape = S := h.2
    cases f with
    | array items node | object map key keyText start lossyKey node =>
     exact ⟨_, rfl, (attach_shape ..).trans hsh, fun hS => attach_root_isSome (hsh.trans hS) ..⟩
 obtain ⟨p', hc, hsh, hroot⟩ := key
 exact ⟨p', hc, hsh, close_rest hc, hroot⟩

theorem memberKey_complete {k t : List Char} (hk : IsKey k) (hr : p.rest = k ++ t) :
 ∃ q, p.memberKey = some q ∧ q.rest = t ∧ q.shape = p.shape := by
 obtain ⟨a, w, b, ha, hw, hb, rfl⟩ := hk
 obtain ⟨body, hbody, rfl⟩ := hw
 have hskip : skipWhitespace p.rest = ('"' :: (body ++ ['"'])) ++ (b ++ (':' :: t)) := by
  rw [hr, append_assoc, skipWhitespace_append ha, cons_append, cons_append,
   skipWhitespace_cons (by decide)]
  simp
 obtain ⟨⟨key, canonical⟩, hs⟩ := string_complete ⟨body, hbody, rfl⟩ (b ++ (':' :: t))
 have hcol : skipWhitespace (b ++ (':' :: t)) = ':' :: t := by
  rw [skipWhitespace_append hb, skipWhitespace_cons (by decide)]
 refine ⟨({ p with rest := t } : Parser).pending key canonical, ?_, by simp, pending_shape ..⟩
 unfold memberKey
 dsimp only
 rw [hskip, if_neg (by simp), hs]
 simp only [hcol]

end Parser

/-! ## How values, elements and members begin -/

/-- A value begins with a character that is neither whitespace nor a closing
bracket. -/
theorem Derives.head {v : List Char} (h : IsValue v) :
 ∃ c t, v = c :: t ∧ isJsonWs c = false ∧ c ≠ ']' := by
 cases h with
 | literal h =>
  simp only [mem_cons, not_mem_nil, or_false] at h
  rcases h with rfl | rfl | rfl <;> exact ⟨_, _, rfl, by decide, by decide⟩
 | number h =>
  obtain @⟨sign, int, frac, exp, hs, hi, -, -⟩ := h
  rcases hs with rfl | rfl
  · cases hi with
    | zero => exact ⟨_, _, rfl, by decide, by decide⟩
    | @pos c ds h1 h9 _ =>
     refine ⟨c, _, rfl, ?_, ?_⟩
     · simp only [isJsonWs, Bool.or_eq_false_iff, decide_eq_false_iff_not]
       refine ⟨⟨⟨?_, ?_⟩, ?_⟩, ?_⟩ <;>
        · rintro rfl
          exact absurd h1 (by decide)
     · rintro rfl
       exact absurd h9 (by decide)
  · exact ⟨_, _, rfl, by decide, by decide⟩
 | string h =>
  obtain ⟨body, -, rfl⟩ := h
  exact ⟨_, _, rfl, by decide, by decide⟩
 | empty k _ => cases k <;> exact ⟨_, _, rfl, by decide, by decide⟩
 | array _ | object _ => exact ⟨_, _, rfl, by decide, by decide⟩

theorem Derives.elements_head {w t : List Char} (h : Derives .elements w) :
 (skipWhitespace (w ++ t)).head? ≠ some ']' := by
 generalize hn : Nonterminal.elements = n at h
 induction h generalizing t with
 | @element a v b ha hv hb _ =>
  obtain ⟨c, u, rfl, hc, hne⟩ := hv.head
  rw [append_assoc, skipWhitespace_append ha, append_assoc, cons_append, skipWhitespace_cons hc]
  simpa using hne
 | elements hw ha hv hb ih _ =>
  rw [append_assoc]
  exact ih hn
 | _ => cases hn

theorem Derives.members_head {w t : List Char} (h : Derives .members w) :
 (skipWhitespace (w ++ t)).head? ≠ some '}' := by
 generalize hn : Nonterminal.members = n at h
 induction h generalizing t with
 | @member k a v b hk ha hv hb _ =>
  obtain ⟨x, s, y, hx, ⟨body, -, rfl⟩, -, rfl⟩ := hk
  rw [append_assoc, append_assoc, skipWhitespace_append hx, append_assoc,
   cons_append, skipWhitespace_cons (by decide)]
  simp
 | members hw hk ha hv hb ih _ =>
  rw [append_assoc]
  exact ih hn
 | _ => cases hn

namespace Parser

/-! ## Running over a derivation -/

/-- Where the loop stands behind a text: its rest, with the same containers open,
and nothing changed in what the whole run leaves. -/
def Behind (p : Parser) (e : Bool) (rest : List Char) (S : List Kind) (p' : Parser) : Prop :=
 p'.rest = rest ∧ p'.shape = S ∧ p.result e = p'.result false

/-- The loop reads what `n` derives. -/
def Reads : Nonterminal → List Char → Prop
 | .value, w => ∀ (p : Parser) rest, NumberEnds rest → p.rest = w ++ rest →
  ∃ p', Behind p true rest p.shape p' ∧ (p.shape = [] → p'.root.isSome)
 | .elements, w => ∀ (p : Parser) rest S, NumberEnds rest → p.rest = w ++ rest → p.shape = .array :: S →
  ∃ p', Behind p true rest p.shape p'
 | .members, w => ∀ (p : Parser) rest S, NumberEnds rest → p.rest = w ++ rest → p.shape = .object :: S →
  ∃ q p', p.memberKey = some q ∧ Behind q true rest p.shape p'

variable {b t a v rest w : List Char} {c : Char} {S : List Kind} {k : Kind}

theorem numberEnds_ws (hb : Ws b) (ht : NumberEnds t) : NumberEnds (b ++ t) := by
 cases b with
 | nil => exact ht
 | cons c b =>
  intro x hx
  cases hx
  have hc := hb _ (mem_cons_self ..)
  simp only [isJsonWs, Bool.or_eq_true, decide_eq_true_eq] at hc
  rcases hc with ((rfl | rfl) | rfl) | rfl <;> decide

theorem numberEnds_cons (h : c.isDigit = false ∧ c ≠ '.' ∧ c ≠ 'e' ∧ c ≠ 'E') :
 NumberEnds (c :: t) := by
 intro x hx
 injection hx with hx
 exact hx ▸ h

variable {p : Parser}

theorem Reads.spaced (hv : Reads .value v) (ha : Ws a) (hb : Ws b) {r : List Char}
 (hrest : NumberEnds r) (hr : p.rest = a ++ (v ++ (b ++ r))) :
 ∃ p', Behind p true r p.shape p' ∧ (p.shape = [] → p'.root.isSome) := by
 obtain ⟨p', ⟨hr', hsh, hres⟩, hroot⟩ :=
  hv { p with rest := v ++ (b ++ r) } (b ++ r) (numberEnds_ws hb hrest) rfl
 refine ⟨{ p' with rest := r }, ⟨rfl, hsh, ?_⟩, hroot⟩
 rw [result_ws ha hr, hres, result_ws hb hr']

theorem turn_value (hr : p.rest = c :: t) (hc : isJsonWs c = false) {left : Bool} {p' : Parser}
 (hv : p.value = some (left, p')) : p.turn true = .next left p' := by
 have hp : ({ p with rest := skipWhitespace p.rest } : Parser) = p := by
  rw [hr, skipWhitespace_cons hc, ← hr]
 simp only [turn, hp, hv, if_true]

theorem turn_separator (hr : p.rest = c :: t) (hc : isJsonWs c = false) (hsh : p.shape = k :: S) :
 p.turn false = p.separator k := by
 have hp : ({ p with rest := skipWhitespace p.rest } : Parser) = p := by
  rw [hr, skipWhitespace_cons hc, ← hr]
 simp only [turn, hp, topKind, hsh, head?_cons, Bool.false_eq_true, if_false]

theorem result_closing {q : Parser} (hr : p.rest = closing k :: rest) (hsh : p.shape = k :: S)
 (hq : ({ p with rest } : Parser).close = some q) : p.result false = q.result false := by
 refine result_next ?_
 rw [turn_separator hr (by cases k <;> decide) hsh]
 cases k with
 | array | object =>
  rw [closing] at hr
  simp only [separator, hr, hq, Turn.of]

theorem turn_closing (hr : p.rest = closing k :: rest) (hsh : p.shape = k :: S) :
 ∃ p', Behind p false rest S p' ∧ (S = [] → p'.root.isSome) := by
 obtain ⟨p', hc, hsh', hr', hroot⟩ := close_complete (p := { p with rest }) (k := k) (S := S) hsh
 exact ⟨p', ⟨hr', hsh', result_closing hr hsh hc⟩, hroot⟩

theorem result_comma (hr : p.rest = ',' :: t) (hsh : p.shape = .array :: S) :
 p.result false = ({ p with rest := t } : Parser).result true := by
 refine result_next ?_
 rw [turn_separator hr (by decide) hsh]
 simp only [separator, hr]

theorem result_commaKey {q : Parser} (hr : p.rest = ',' :: t) (hsh : p.shape = .object :: S)
 (hq : ({ p with rest := t } : Parser).memberKey = some q) : p.result false = q.result true := by
 refine result_next ?_
 rw [turn_separator hr (by decide) hsh]
 simp only [separator, hr, hq, Turn.of]

theorem reads_token (hw : w = c :: t) (hc : isJsonWs c = false)
 (hv : ∀ p : Parser, ∀ rest, NumberEnds rest → p.rest = w ++ rest →
  ∃ v n, p.value = some (false, { p with rest }.attach v n)) : Reads .value w := by
 intro p rest hrest hr
 obtain ⟨v, n, hval⟩ := hv p rest hrest hr
 have hr' : p.rest = c :: (t ++ rest) := by rw [hr, hw]; rfl
 exact ⟨({ p with rest } : Parser).attach v n,
  ⟨attach_rest .., attach_shape .., result_next (turn_value hr' hc hval)⟩,
  fun h => attach_root_isSome (p := { p with rest }) h v n⟩

theorem literal_complete (v : Value) (hr : p.rest = w ++ rest) :
 p.literal w v = some (false, { p with rest }.attach v .empty) := by
 rw [literal, hr, if_pos (prefix_append ..), drop_left]

theorem value_literal {v : Value}
 (h : (w, v) ∈ [("true".toList, Value.bool true), ("false".toList, .bool false),
  ("null".toList, .null)]) (hr : p.rest = w ++ rest) :
 p.value = some (false, { p with rest }.attach v .empty) := by
 simp only [mem_cons, Prod.mk.injEq, not_mem_nil, or_false] at h
 rcases h with ⟨rfl, rfl⟩ | ⟨rfl, rfl⟩ | ⟨rfl, rfl⟩
 · have : p.value = p.literal "true".toList (.bool true) := by simp [value, hr]
   rw [this, literal_complete _ hr]
 · have : p.value = p.literal "false".toList (.bool false) := by simp [value, hr]
   rw [this, literal_complete _ hr]
 · have : p.value = p.literal "null".toList .null := by simp [value, hr]
   rw [this, literal_complete _ hr]

theorem reads_literal (h : w ∈ ["true".toList, "false".toList, "null".toList]) :
 Reads .value w := by
 simp only [mem_cons, not_mem_nil, or_false] at h
 rcases h with rfl | rfl | rfl
 · exact reads_token (c := 't') rfl (by decide) fun p rest _ hr =>
    ⟨.bool true, .empty, value_literal (by simp) hr⟩
 · exact reads_token (c := 'f') rfl (by decide) fun p rest _ hr =>
    ⟨.bool false, .empty, value_literal (by simp) hr⟩
 · exact reads_token (c := 'n') rfl (by decide) fun p rest _ hr =>
    ⟨.null, .empty, value_literal (by simp) hr⟩

theorem value_string {p : Parser} {t rest : List Char} {text : String}
 {canonical : Option (List Char)} (hr : p.rest = '"' :: t)
 (hs : string p.rest = some ((text, canonical), rest)) :
 p.value = some (false, { p with rest }.attach (.string text) (p.stringNode text canonical)) := by
 unfold value
 split
 next hnil =>
  rw [hr] at hnil
  simp at hnil
 next c t hcons =>
  rw [hr] at hcons
  injection hcons with hcons _
  subst hcons
  simp only [stringValue, hs]
  rfl

theorem reads_string (h : IsString w) : Reads .value w := by
 obtain ⟨body, hb, rfl⟩ := h
 refine reads_token rfl (by decide) fun p rest _ hr => ?_
 obtain ⟨⟨text, canonical⟩, hs⟩ := string_complete ⟨body, hb, rfl⟩ rest
 exact ⟨.string text, p.stringNode text canonical, value_string hr (hr ▸ hs)⟩

theorem numberHead_ne (hc : c = '-' ∨ c.isDigit) : isJsonWs c = false ∧ c ≠ '['
 ∧ c ≠ '{' ∧ c ≠ '"' ∧ c ≠ 't' ∧ c ≠ 'f' ∧ c ≠ 'n' := by
 rcases hc with rfl | hd
 · decide
 · have hx : ∀ x : Char, x.isDigit = false → c ≠ x := by
    rintro x hx rfl
    simp [hx] at hd
   refine ⟨?_, hx _ (by decide), hx _ (by decide), hx _ (by decide), hx _ (by decide),
    hx _ (by decide), hx _ (by decide)⟩
   simp only [isJsonWs, Bool.or_eq_false_iff, decide_eq_false_iff_not]
   exact ⟨⟨⟨hx _ (by decide), hx _ (by decide)⟩, hx _ (by decide)⟩, hx _ (by decide)⟩

theorem value_number (h : IsNumber w) (hrest : NumberEnds rest) (hr : p.rest = w ++ rest) :
 p.value = some (false, { p with rest }.attach (tokenValue w) .empty) := by
 obtain ⟨c, t, hw, hc⟩ := isNumber_head h
 obtain ⟨-, h1, h2, h3, h4, h5, h6⟩ := numberHead_ne hc
 have hend : numberEnd p.rest = some rest := by rw [hr]; exact numberEnd_complete h hrest
 have hslice : slice p.rest rest = w := by rw [hr, slice_append]
 unfold value
 split
 next hnil =>
  rw [hr, hw] at hnil
  simp at hnil
 next c' t' hcons =>
  rw [hr, hw] at hcons
  injection hcons with hcons _
  subst hcons
  rw [if_neg h1, if_neg h2, if_neg h3, if_neg h4, if_neg h5, if_neg h6, if_pos hc, numberValue,
   hend, Option.map_some, hslice]

theorem reads_number (h : IsNumber w) : Reads .value w := by
 obtain ⟨c, t, hw, hc⟩ := isNumber_head h
 exact reads_token hw (numberHead_ne hc).1 fun p rest hrest hr =>
  ⟨tokenValue w, .empty, value_number h hrest hr⟩

theorem value_opening (hr : p.rest = opening k :: t) : p.value = p.container k := by
 unfold value
 split
 next hnil =>
  rw [hr] at hnil
  simp at hnil
 next c t' hcons =>
  rw [hr] at hcons
  injection hcons with hcons _
  subst hcons
  cases k <;> rfl

theorem result_empty {p q : Parser} {k : Kind} {s rest : List Char} (hs : Ws s)
 (hr : p.rest = opening k :: (s ++ closing k :: rest))
 (hq : ({ p.openContainer k with rest } : Parser).close = some q) :
 p.result true = q.result false := by
 have hskip : skipWhitespace (p.openContainer k).rest = closing k :: rest := by
  rw [openContainer_rest, hr, tail_cons, skipWhitespace_append hs,
   skipWhitespace_cons (by cases k <;> decide)]
 refine result_next (turn_value hr (by cases k <;> decide) ?_)
 rw [value_opening hr, container.eq_def]
 simp only [hskip, head?_cons, if_true, tail_cons]
 rw [hq]
 rfl

theorem result_array {p : Parser} {w rest : List Char} (hd : Derives .elements w)
 (hr : p.rest = '[' :: (w ++ ']' :: rest)) :
 p.result true = (p.openContainer .array).result true := by
 have hopen : (p.openContainer .array).rest = w ++ (']' :: rest) := by
  rw [openContainer_rest, hr]
  rfl
 obtain ⟨a, ha, hsplit⟩ := skipWhitespace_split (p.openContainer .array).rest
 rw [result_ws ha hsplit]
 refine result_next (turn_value hr (by decide) ?_)
 rw [value_opening (k := .array) hr, container.eq_def]
 have hne : (skipWhitespace (p.openContainer .array).rest).head? ≠ some (closing .array) := by
  rw [hopen]
  exact hd.elements_head
 simp only [if_neg hne]

theorem result_object {p q : Parser} {w rest : List Char} (hd : Derives .members w)
 (hr : p.rest = '{' :: (w ++ '}' :: rest)) (hq : (p.openContainer .object).memberKey = some q) :
 p.result true = q.result true := by
 have hopen : (p.openContainer .object).rest = w ++ ('}' :: rest) := by
  rw [openContainer_rest, hr]
  rfl
 refine result_next (turn_value hr (by decide) ?_)
 rw [value_opening (k := .object) hr, container.eq_def]
 have hne : (skipWhitespace (p.openContainer .object).rest).head? ≠ some (closing .object) := by
  rw [hopen]
  exact hd.members_head
 have hkey : ({ (p.openContainer .object) with
  rest := skipWhitespace (p.openContainer .object).rest } : Parser).memberKey = some q := by
  rw [← hq]
  simp only [memberKey, skipWhitespace_idem]
 simp only [if_neg hne, hkey, Option.map_some]

theorem reads_empty (k : Kind) {s : List Char} (hs : Ws s) :
 Reads .value (opening k :: (s ++ [closing k])) := by
 intro p rest hrest hr
 have hr' : p.rest = opening k :: (s ++ (closing k :: rest)) := by rw [hr]; simp
 obtain ⟨p', hc, hsh', hr'', hroot⟩ :=
  close_complete (p := { (p.openContainer k) with rest }) (openContainer_shape p k)
 exact ⟨p', ⟨hr'', hsh', result_empty hs hr' hc⟩, hroot⟩

theorem reads_array (hd : Derives .elements w) (ih : Reads .elements w) :
 Reads .value ('[' :: (w ++ [']'])) := by
 intro p rest hrest hr
 have hr' : p.rest = '[' :: (w ++ (']' :: rest)) := by rw [hr]; simp
 have hopen : (p.openContainer .array).rest = w ++ (']' :: rest) := by
  rw [openContainer_rest, hr']
  rfl
 have hsh : (p.openContainer .array).shape = .array :: p.shape := openContainer_shape p .array
 obtain ⟨p1, hr1, hsh1, hres1⟩ :=
  ih (p.openContainer .array) (']' :: rest) p.shape (numberEnds_cons (by decide)) hopen hsh
 obtain ⟨p2, ⟨hr2, hsh2, hres2⟩, hroot⟩ := turn_closing (k := .array) hr1 (hsh1.trans hsh)
 exact ⟨p2, ⟨hr2, hsh2, by rw [← hres2, ← hres1, result_array hd hr']⟩, hroot⟩

theorem reads_object (hd : Derives .members w) (ih : Reads .members w) :
 Reads .value ('{' :: (w ++ ['}'])) := by
 intro p rest hrest hr
 have hr' : p.rest = '{' :: (w ++ ('}' :: rest)) := by rw [hr]; simp
 have hopen : (p.openContainer .object).rest = w ++ ('}' :: rest) := by
  rw [openContainer_rest, hr']
  rfl
 have hsh : (p.openContainer .object).shape = .object :: p.shape := openContainer_shape p .object
 obtain ⟨q, p1, hkey, hr1, hsh1, hres1⟩ :=
  ih (p.openContainer .object) ('}' :: rest) p.shape (numberEnds_cons (by decide)) hopen hsh
 obtain ⟨p2, ⟨hr2, hsh2, hres2⟩, hroot⟩ := turn_closing (k := .object) hr1 (hsh1.trans hsh)
 exact ⟨p2, ⟨hr2, hsh2, by rw [← hres2, ← hres1, result_object hd hr' hkey]⟩, hroot⟩

theorem reads_elements (ihw : Reads .elements w) (hv : Reads .value v) (ha : Ws a) (hb : Ws b) :
 Reads .elements (w ++ ',' :: (a ++ (v ++ b))) := by
 intro p rest S hrest hr hsh
 have hr' : p.rest = w ++ (',' :: (a ++ (v ++ (b ++ rest)))) := by rw [hr]; simp
 obtain ⟨p1, hr1, hsh1, hres1⟩ := ihw p _ S (numberEnds_cons (by decide)) hr' hsh
 obtain ⟨p2, ⟨hr2, hsh2, hres2⟩, -⟩ :=
  hv.spaced ha hb (p := { p1 with rest := a ++ (v ++ (b ++ rest)) }) hrest rfl
 refine ⟨p2, hr2, hsh2.trans hsh1, ?_⟩
 rw [← hres2, hres1, result_comma hr1 (hsh1.trans hsh)]

theorem reads_member {k : List Char} (hk : IsKey k) (hv : Reads .value v) (ha : Ws a) (hb : Ws b) :
 Reads .members (k ++ (a ++ (v ++ b))) := by
 intro p rest S hrest hr hsh
 have hr' : p.rest = k ++ (a ++ (v ++ (b ++ rest))) := by rw [hr]; simp
 obtain ⟨q, hq, hqr, hqsh⟩ := memberKey_complete hk hr'
 obtain ⟨p2, ⟨hr2, hsh2, hres2⟩, -⟩ := hv.spaced ha hb hrest hqr
 exact ⟨q, p2, hq, hr2, hsh2.trans hqsh, hres2⟩

theorem reads_members {k : List Char} (ihw : Reads .members w) (hk : IsKey k) (hv : Reads .value v)
 (ha : Ws a) (hb : Ws b) : Reads .members (w ++ ',' :: (k ++ (a ++ (v ++ b)))) := by
 intro p rest S hrest hr hsh
 have hr' : p.rest = w ++ (',' :: (k ++ (a ++ (v ++ (b ++ rest))))) := by rw [hr]; simp
 obtain ⟨q, p1, hq, hr1, hsh1, hres1⟩ := ihw p _ S (numberEnds_cons (by decide)) hr' hsh
 obtain ⟨q1, hq1, hqr1, hqsh1⟩ :=
  memberKey_complete (p := { p1 with rest := k ++ (a ++ (v ++ (b ++ rest))) }) hk rfl
 obtain ⟨p2, ⟨hr2, hsh2, hres2⟩, -⟩ := hv.spaced ha hb hrest hqr1
 refine ⟨q, p2, hq, hr2, hsh2.trans (hqsh1.trans hsh1), ?_⟩
 rw [← hres2, hres1, result_commaKey hr1 (hsh1.trans hsh) hq1]

/-- **The loop reads every derivable text.** -/
theorem reads_of_derives {n : Nonterminal} (h : Derives n w) : Reads n w := by
 induction h with
 | literal h => exact reads_literal h
 | number h => exact reads_number h
 | string h => exact reads_string h
 | empty k hs => exact reads_empty k hs
 | array hd ih => exact reads_array hd ih
 | object hd ih => exact reads_object hd ih
 | element ha hv hb ih =>
  intro p rest S hrest hr hsh
  obtain ⟨p', hp', -⟩ := ih.spaced ha hb (p := p) hrest (by rw [hr]; simp)
  exact ⟨p', hp'⟩
 | elements hw ha hv hb ihw ihv => exact reads_elements ihw ihv ha hb
 | member hk ha hv hb ih => exact reads_member hk ih ha hb
 | members hw hk ha hv hb ihw ihv => exact reads_members ihw hk ihv ha hb

end Parser

/-- **Every JSON text is accepted**, at any depth. -/
theorem parse_complete {T : List Char} (h : IsJson T) (depth : Nat) :
 (parseAtDepthWithNode T depth).isSome := by
 obtain ⟨a, v, b, ha, hv, hb, rfl⟩ := h
 obtain ⟨p', ⟨hr, hsh, hres⟩, hroot⟩ := (Parser.reads_of_derives hv).spaced ha hb
  (p := Parser.start (a ++ (v ++ b)) depth) (r := []) (fun c hc => absurd hc (by simp))
  (by simp [Parser.start])
 have hdone : p'.turn false = .done := by
  have hk : ({ p' with rest := skipWhitespace p'.rest } : Parser).topKind = none := by
   show p'.shape.head? = none
   rw [hsh]
   rfl
  simp only [Parser.turn, hk, Bool.false_eq_true, if_false]
  rw [hr]
  rfl
 rw [parseAtDepthWithNode, ← Parser.result, hres, Parser.result_done hdone]
 exact hroot rfl

theorem parse_isSome_iff (T : List Char) (depth : Nat) :
 (parseAtDepthWithNode T depth).isSome ↔ IsJson T := by
 constructor
 · intro h
   obtain ⟨⟨v, n⟩, h⟩ := Option.isSome_iff_exists.mp h
   exact (parse_sound h).1
 · intro h
   exact parse_complete h depth

/-- The loop of `Parser::run` given a number of turns: `none` when it needs more. -/
def Parser.runFor : Nat → Parser → Bool → Option (Option Parser)
 | 0, _, _ => none
 | turns + 1, p, expectValue =>
  match p.turn expectValue with
  | .fail => some none
  | .done => some (some p)
  | .next e p' => runFor turns p' e

theorem Parser.runFor_eq : ∀ (turns : Nat) (p : Parser) (e : Bool), p.rest.length < turns →
 runFor turns p e = some (p.run e)
 | 0, _, _, h => absurd h (by omega)
 | turns + 1, p, e, h => by
  rw [runFor]
  cases hturn : p.turn e with
  | fail => exact congrArg some (run_fail hturn).symm
  | done => exact congrArg some (run_done hturn).symm
  | next e' p' =>
   have hlt := turn_length hturn
   rw [run_next hturn]
   exact runFor_eq turns p' e' (by omega)

/-- **The session-line reader accepts exactly JSON**: its loop ends on every text, within
one turn more than the text has characters, and the text is read when it is one JSON
value between whitespace. -/
theorem parseJsonLine_isSome_iff (text : List Char) :
 Parser.runFor (text.length + 1) (Parser.start text 0) true = some ((Parser.start text 0).run true)
  ∧ ((parseJsonLine text).isSome ↔ IsJson text) := by
 refine ⟨Parser.runFor_eq _ _ _ (Nat.lt_succ_self _), ?_⟩
 rw [← parse_isSome_iff text 0, parseJsonLine]
 cases parseAtDepthWithNode text 0 <;> simp

end Bake.Json
