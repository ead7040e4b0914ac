import Bake.Json.Tokens

/-!
# What the reader accepts is JSON

At every turn the text read so far splits into the containers still open, each
read as far as `Opened` says, and nothing else: that is `Nest`. A container that
closes is therefore a derivable value, and so is the slice of the text it was
read from, which is why every kept text can be written back (`NodeOk`).
-/

open List

namespace Bake.Json

/-- A line break in `t` comes from the text `T`. -/
def LineText (T t : List Char) : Prop := '\n' ∈ t → '\n' ∈ T

def KeptOk (T : List Char) : Kept → Prop
 | .string _ t => IsString t ∧ LineText T t
 | .deep t => IsValue t ∧ LineText T t
 | .lossyKeys t _ => IsValue t ∧ t.head? = some '{' ∧ LineText T t

/-- Every text kept at or below a node can stand where its value stands. -/
inductive NodeOk (T : List Char) : Node → Prop where
 | mk {kept : Option Kept} {keyTexts : List (String × List Char)}
  {members : List (String × Node)} {items : List (Nat × Node)} :
  (∀ k, kept = some k → KeptOk T k) →
  (∀ b ∈ keyTexts, IsString b.2 ∧ LineText T b.2) →
  (∀ b ∈ members, NodeOk T b.2) →
  (∀ b ∈ items, NodeOk T b.2) →
  NodeOk T (.mk kept keyTexts members items)

theorem NodeOk.empty (T : List Char) : NodeOk T .empty :=
 .mk (by simp) (by simp) (by simp) (by simp)

theorem NodeOk.leaf {T : List Char} {k : Kept} (h : KeptOk T k) :
 NodeOk T (.mk (some k) [] [] []) := by
 refine .mk ?_ (by simp) (by simp) (by simp)
 intro k' hk
 injection hk with hk
 exact hk ▸ h

/-- What a frame keeps can be written back. -/
def FrameOk (T : List Char) : Frame → Prop
 | .array _ node => NodeOk T node
 | .object _ _ keyText _ _ node =>
  NodeOk T node ∧ ∀ t, keyText = some t → IsString t ∧ LineText T t

/-! ## Open containers -/

/-- The levels of skipped containers; the text of the outermost is known. -/
def skippedLevels : List Kind → List Char → List (Kind × Option (List Char))
 | [], _ => []
 | [k], s => [(k, some s)]
 | k :: k' :: ks, s => (k, none) :: skippedLevels (k' :: ks) s

/-- A frame's kind and, for an object, the text from its bracket on. -/
def Frame.level : Frame → Kind × Option (List Char)
 | .array .. => (.array, none)
 | .object _ _ _ start _ _ => (.object, some start)

/-- The open containers, innermost first. -/
def Parser.levels (p : Parser) : List (Kind × Option (List Char)) :=
 skippedLevels p.skipped p.skipStart ++ p.stack.map Frame.level

/-- The text `T` read up to `rest`: the open containers, whether a value comes
next, and what is left. -/
inductive Nest (T : List Char) : List (Kind × Option (List Char)) → Bool → List Char → Prop where
 | start {a rest : List Char} : Ws a → T = a ++ rest → Nest T [] true rest
 | finished {a v b rest : List Char} : Ws a → IsValue v → Ws b → T = a ++ (v ++ (b ++ rest)) →
  Nest T [] false rest
 | level {k : Kind} {o : Option (List Char)} {outer : List (Kind × Option (List Char))}
  {e : Bool} {s w rest : List Char} : Nest T outer true s → Opened k e w → s = w ++ rest →
  (∀ st, o = some st → st = s) → Nest T ((k, o) :: outer) e rest

namespace Nest

variable {T : List Char} {L : List (Kind × Option (List Char))}

variable {e : Bool} {o : Option (List Char)}

variable {rest : List Char}

theorem ws {a : List Char} (h : Nest T L e (a ++ rest)) (ha : Ws a) : Nest T L e rest := by
 generalize hr : a ++ rest = r at h
 cases h with
 | start ha' hT =>
  subst hr
  exact .start (ha'.append ha) (by rw [hT, append_assoc])
 | finished ha' hv hb hT =>
  subst hr
  exact .finished ha' hv (hb.append ha) (by rw [hT, append_assoc])
 | level ho hw hs hst =>
  subst hr
  exact .level ho (hw.ws ha) (by rw [hs, append_assoc]) hst

theorem skip (h : Nest T L e rest) : Nest T L e (skipWhitespace rest) := by
 obtain ⟨a, ha, hr⟩ := skipWhitespace_split rest
 rw [hr] at h
 exact h.ws ha

theorem value {v : List Char} (h : Nest T L true (v ++ rest)) (hv : IsValue v) :
  Nest T L false rest := by
 generalize hr : v ++ rest = r at h
 cases h with
 | start ha hT =>
  subst hr
  exact .finished (b := []) ha hv .nil (by rw [hT, nil_append])
 | level ho hw hs hst =>
  subst hr
  exact .level ho (hw.value hv) (by rw [hs, append_assoc]) hst

theorem suffix (h : Nest T L e rest) : rest <:+ T := by
 induction h with
 | start _ hT => exact ⟨_, hT.symm⟩
 | @finished a v b rest _ _ _ hT => exact ⟨a ++ (v ++ b), by rw [hT]; simp⟩
 | level _ _ hs _ ih => exact List.IsSuffix.trans ⟨_, hs.symm⟩ ih

/-- A closing bracket after a value closes the innermost container, and the text
it was opened at is the container's text before what is left. -/
theorem close {k : Kind} (h : Nest T ((k, o) :: L) false (Parser.closing k :: rest)) :
 Nest T L false rest ∧ ∃ v, IsValue v ∧ v.head? = some (opening k)
  ∧ (∀ st, o = some st → st = v ++ rest) ∧ v ++ rest <:+ T := by
 generalize hr : Parser.closing k :: rest = r at h
 cases h with
 | @level _ _ _ _ s w _ ho hw hs hst =>
  subst hr
  have hv := hw.close
  have heq : s = (w ++ [Parser.closing k]) ++ rest := by rw [hs]; simp
  have hsuf : s <:+ T := ho.suffix
  rw [heq] at ho
  refine ⟨ho.value hv, _, hv, ?_, fun st h => by rw [hst st h, heq], heq ▸ hsuf⟩
  cases hw <;> rfl

theorem comma (h : Nest T ((.array, o) :: L) false (',' :: rest)) :
 Nest T ((.array, o) :: L) true rest := by
 generalize hr : ',' :: rest = r at h
 cases h with
 | level ho hw hs hst =>
  subst hr
  exact .level ho hw.comma (by rw [hs]; simp) hst

theorem commaKey {k : List Char} (h : Nest T ((.object, o) :: L) false (',' :: (k ++ rest)))
 (hk : IsKey k) : Nest T ((.object, o) :: L) true rest := by
 generalize hr : ',' :: (k ++ rest) = r at h
 cases h with
 | level ho hw hs hst =>
  subst hr
  exact .level ho (hw.commaKey hk) (by rw [hs]; simp) hst

theorem outer_head {k : Kind} (h : Nest T [(k, o)] e rest) :
 (skipWhitespace T).head? = some (opening k) := by
 cases h with
 | @level _ _ _ _ s w _ ho hw hs hst =>
  cases ho with
  | start ha hT =>
   obtain ⟨t, ht⟩ : ∃ t, s = opening k :: t := by
    cases hw <;> exact ⟨_, hs⟩
   rw [hT, skipWhitespace_append ha, ht, skipWhitespace_cons (by cases k <;> decide)]
   rfl

end Nest

/-! ## Operations -/

theorem slice_append (x r : List Char) : slice (x ++ r) r = x := by
 simp [slice]

theorem newline_unicodeEscape (n : Nat) : '\n' ∉ unicodeEscape n := by
 have hhex : ∀ n : Fin 16, hexDigit n ≠ '\n' := by decide
 have hx : ∀ n, '\n' ≠ hexDigit (n % 16) := fun n h =>
  hhex ⟨n % 16, Nat.mod_lt _ (by decide)⟩ h.symm
 simp [unicodeEscape, hx]

theorem newline_writeChar (c : Char) : '\n' ∉ writeChar c := by
 unfold writeChar
 split
 · simp
 split
 · simp
 split
 · simp
 split
 · simp
 split
 · simp
 split
 · simp
 split
 · simp
 split
 · exact newline_unicodeEscape _
 next _ _ _ _ h _ _ _ =>
  simpa using Ne.symm h

theorem newline_writeString (text : String) : '\n' ∉ writeString text := by
 simp only [writeString, mem_cons, mem_append, mem_flatMap, not_or, not_exists, not_and]
 exact ⟨⟨by decide, fun c _ => newline_writeChar c⟩, by simp⟩

theorem newline_canonicalString (units : List StrUnit) : '\n' ∉ canonicalString units := by
 simp only [canonicalString, mem_cons, mem_append, mem_flatMap, not_or, not_exists, not_and]
 refine ⟨⟨by decide, fun u _ => ?_⟩, by simp⟩
 cases u with
 | text c => exact newline_writeChar c
 | lone n => exact newline_unicodeEscape n

theorem string_canonical {t r c : List Char} {v : String} (h : string t = some ((v, some c), r)) :
 IsString c ∧ '\n' ∉ c := by
 simp only [string, Option.map_eq_some_iff, Prod.mk.injEq, Prod.exists] at h
 obtain ⟨us, r', -, ⟨-, hc⟩, -⟩ := h
 split at hc
 · injection hc with hc
   exact hc ▸ ⟨isString_canonicalString us, newline_canonicalString us⟩
 · simp at hc

namespace Parser

@[simp] theorem attach_levels (p : Parser) (v : Value) (n : Node) :
 (p.attach v n).levels = p.levels := by
 unfold attach
 split
 · rfl
 split
 · rfl
 next h =>
  simp [levels, h, Frame.level]
 next h =>
  simp [levels, h, Frame.level]

@[simp] theorem attach_skipped (p : Parser) (v : Value) (n : Node) :
 (p.attach v n).skipped = p.skipped := by
 unfold attach
 repeat' split
 all_goals rfl

@[simp] theorem attach_baseDepth (p : Parser) (v : Value) (n : Node) :
 (p.attach v n).baseDepth = p.baseDepth := by
 unfold attach
 repeat' split
 all_goals rfl

theorem attach_stack_nil (p : Parser) (v : Value) (n : Node) :
 (p.attach v n).stack = [] ↔ p.stack = [] := by
 unfold attach
 repeat' split
 all_goals simp_all

theorem openContainer_levels (p : Parser) (k : Kind) :
 ∃ o, (p.openContainer k).levels = (k, o) :: p.levels ∧ ∀ st, o = some st → st = p.rest := by
 unfold openContainer
 dsimp only
 split
 · cases hs : p.skipped with
   | nil => exact ⟨some p.rest, by simp [levels, skippedLevels, hs], by simp⟩
   | cons k' ks => exact ⟨none, by simp [levels, skippedLevels, hs], by simp⟩
 next h =>
  have hs : p.skipped = [] := by
   by_contra hs
   exact h (.inl hs)
  cases k with
  | array => exact ⟨none, by simp [levels, skippedLevels, hs, Frame.level], by simp⟩
  | object => exact ⟨some p.rest, by simp [levels, skippedLevels, hs, Frame.level], by simp⟩

variable {p p' : Parser} {T : List Char} {d : Nat} {L : List (Kind × Option (List Char))} {e : Bool}

theorem memberKey_sound (h : p.memberKey = some p') :
 ∃ k key c, IsKey k ∧ p.rest = k ++ p'.rest ∧ p' = { p with rest := p'.rest }.pending key c
  ∧ ∀ t, c = some t → IsString t ∧ '\n' ∉ t := by
 unfold memberKey at h
 dsimp only at h
 split at h
 · simp at h
 rename_i hq
 split at h
 · simp at h
 rename_i key canonical text hs
 split at h
 next rest hc =>
  cases h
  obtain ⟨a, ha, hrest⟩ := skipWhitespace_split p.rest
  obtain ⟨k, hk, htext⟩ := string_sound (by simpa using hq) hs
  obtain ⟨b, hb, hcol⟩ := skipWhitespace_split text
  refine ⟨a ++ (k ++ (b ++ [':'])), key, canonical, ⟨a, k, b, ha, hk, hb, rfl⟩, ?_, ?_, ?_⟩
  · rw [hrest, htext, hcol, hc, pending_rest]
    simp
  · rw [pending_rest]
  · intro t ht
    subst ht
    exact string_canonical hs
 · simp at h

@[simp] theorem pending_levels (p : Parser) (key : String) (c : Option (List Char)) :
 (p.pending key c).levels = p.levels := by
 unfold pending
 split
 · rfl
 split
 next h =>
  simp [levels, h, Frame.level]
 · rfl

/-! ## The invariant -/

/-- What the reader holds at every turn of reading `T`, the cursor aside. -/
structure Held (T : List Char) (d : Nat) (p : Parser) : Prop where
 depth : p.baseDepth = d
 /-- Everything kept in an open container can be written back. -/
 frames : ∀ f ∈ p.stack, FrameOk T f
 /-- So can everything kept in the finished value, and a text that begins with a
  brace is an object. -/
 root : ∀ v n, p.root = some (v, n) → NodeOk T n
  ∧ (d = 0 → (skipWhitespace T).head? = some '{' → ∃ m, v = .object m)
 /-- Containers are skipped only deep inside others. -/
 base : d = 0 → p.stack = [] → p.skipped = []

/-- What holds at every turn of reading `T`. -/
structure Sound (T : List Char) (d : Nat) (p : Parser) (e : Bool) : Prop where
 held : Held T d p
 /-- The text read is the open containers' texts. -/
 nest : Nest T p.levels e p.rest
 /-- A finished text has its value. -/
 finished : e = false → p.levels = [] → p.root.isSome

theorem Held.rest (h : Held T d p) (rest : List Char) :
 Held T d { p with rest } := ⟨h.depth, h.frames, h.root, h.base⟩

variable {v : Value} {n : Node}

theorem attach_frames (hf : ∀ f ∈ p.stack, FrameOk T f) (hn : NodeOk T n) :
 ∀ f ∈ (p.attach v n).stack, FrameOk T f := by
 unfold attach
 split
 · exact hf
 split
 · exact hf
 next items node outer hs =>
  rw [hs] at hf
  have hnode : NodeOk T node := hf _ (mem_cons_self ..)
  intro f hmem
  rcases mem_cons.mp hmem with rfl | hmem
  · obtain ⟨hk, ht, hm, hi⟩ := hnode
    show NodeOk T _
    split
    · exact .mk hk ht hm hi
    · refine .mk hk ht hm ?_
      intro b hb
      rcases mem_append.mp hb with hb | hb
      · exact hi b hb
      · rw [mem_singleton.mp hb]
        exact hn
  · exact hf f (mem_cons_of_mem _ hmem)
 next map key keyText start lossyKey node outer hs =>
  rw [hs] at hf
  have hnode : FrameOk T (.object map key keyText start lossyKey node) := hf _ (mem_cons_self ..)
  intro f hmem
  rcases mem_cons.mp hmem with rfl | hmem
  · obtain ⟨⟨hk, ht, hm, hi⟩, hkey⟩ := hnode
    refine ⟨.mk hk ?_ ?_ hi, by simp⟩
    · intro b hb
      split at hb
      next text =>
       rcases OrdMap.mem_insert hb with rfl | hb
       · exact hkey text rfl
       · exact ht b hb
      · exact ht b (OrdMap.mem_erase hb)
    · intro b hb
      split at hb
      · exact hm b (OrdMap.mem_erase hb)
      · rcases OrdMap.mem_insert hb with rfl | hb
        · exact hn
        · exact hm b hb
  · exact hf f (mem_cons_of_mem _ hmem)

theorem attach_root {w : Value} {m : Node} (h : (p.attach v n).root = some (w, m)) :
 p.root = some (w, m) ∨ (p.stack = [] ∧ p.skipped = [] ∧ w = v ∧ m = n) := by
 unfold attach at h
 split at h
 · exact .inl h
 rename_i hs
 split at h
 next hst =>
  injection h with h
  injection h with h1 h2
  exact .inr ⟨hst, by simpa using hs, h1.symm, h2.symm⟩
 · exact .inl h
 · exact .inl h

theorem levels_eq_nil (h : p.levels = []) : p.stack = [] ∧ p.skipped = [] := by
 simp only [levels, append_eq_nil_iff, map_eq_nil_iff] at h
 refine ⟨h.2, ?_⟩
 have h1 := h.1
 match hk : p.skipped with
 | [] => rfl
 | [k] | k :: k' :: ks => rw [hk] at h1; simp [skippedLevels] at h1

theorem attach_isSome (h : p.levels = []) : (p.attach v n).root.isSome := by
 obtain ⟨hst, hsk⟩ := levels_eq_nil h
 unfold attach
 rw [if_neg (by simp [hsk])]
 simp [hst]

/-- **Attaching a value just read** keeps the invariant. -/
theorem Held.attach (hp : Held T d p) (hnest : Nest T p.levels e p.rest) (hn : NodeOk T n)
 (hv : d = 0 → p.stack = [] → (skipWhitespace T).head? = some '{' → ∃ m, v = .object m) :
 Sound T d (p.attach v n) e where
 held := {
  depth := (attach_baseDepth ..).trans hp.depth
  frames := attach_frames hp.frames hn
  root := by
   intro w m hr
   rcases attach_root hr with hr | ⟨hst, -, rfl, rfl⟩
   · exact hp.root w m hr
   · exact ⟨hn, fun hb hT => hv hb hst hT⟩
  base := by
   intro hb hst
   rw [attach_stack_nil] at hst
   rw [attach_skipped]
   exact hp.base hb hst }
 nest := by
  rw [attach_levels, attach_rest]
  exact hnest
 finished := by
  intro _ hl
  rw [attach_levels] at hl
  exact attach_isSome hl
theorem top_head {rest : List Char} (h : Nest T [] true rest) :
 (skipWhitespace T).head? = (skipWhitespace rest).head? := by
 cases h with
 | start ha hT => rw [hT, skipWhitespace_append ha]

theorem Sound.not_brace {c : Char} {tail : List Char}
 (h : Sound T d p true) (hr : p.rest = c :: tail) (hw : isJsonWs c = false) (hc : c ≠ '{') :
 d = 0 → p.stack = [] → (skipWhitespace T).head? = some '{' → False := by
 intro hb hst hT
 have hl : p.levels = [] := by
  simp [levels, hst, h.held.base hb hst, skippedLevels]
 have hn := h.nest
 rw [hl, hr] at hn
 rw [top_head hn, skipWhitespace_cons hw] at hT
 exact hc (by simpa using hT)
theorem pending_held {key : String} {c : Option (List Char)} (hp : Held T d p)
 (hc : ∀ t, c = some t → IsString t ∧ '\n' ∉ t) : Held T d (p.pending key c) := by
 unfold pending
 split
 · exact hp
 split
 next map key' keyText start lossyKey node outer hs =>
  have hf := hp.frames
  rw [hs] at hf
  refine ⟨hp.depth, ?_, hp.root, ?_⟩
  · intro f hmem
    rcases mem_cons.mp hmem with rfl | hmem
    · refine ⟨(hf _ (mem_cons_self ..)).1, fun t ht => ?_⟩
      exact ⟨(hc t ht).1, fun h => absurd h (hc t ht).2⟩
    · exact hf f (mem_cons_of_mem _ hmem)
  · intro _ h
    simp at h
 · exact hp

theorem openContainer_held (hp : Held T d p) (k : Kind) : Held T d (p.openContainer k) := by
 unfold openContainer
 dsimp only
 split
 next h =>
  refine ⟨hp.depth, hp.frames, hp.root, fun hb hst => ?_⟩
  rcases h with h | h
  · exact absurd (hp.base hb hst) h
  · dsimp only at hb hst
    rw [hst, hp.depth, hb] at h
    exact absurd h (by decide)
 · cases k with
   | array =>
    refine ⟨hp.depth, ?_, hp.root, fun _ h => absurd h (by simp)⟩
    intro f hmem
    rcases mem_cons.mp hmem with rfl | hmem
    · exact NodeOk.empty T
    · exact hp.frames f hmem
   | object =>
    refine ⟨hp.depth, ?_, hp.root, fun _ h => absurd h (by simp)⟩
    intro f hmem
    rcases mem_cons.mp hmem with rfl | hmem
    · exact ⟨NodeOk.empty T, by simp⟩
    · exact hp.frames f hmem

variable {k : Kind}

/--
**Closing a container** whose text is `v` keeps the invariant: the slice it keeps,
if it keeps one, is `v`.
-/
theorem close_sound {o : Option (List Char)} {v : List Char} (hp : Held T d p)
 (hlev : p.levels = (k, o) :: L) (hnest : Nest T L false p.rest) (hv : IsValue v)
 (hhead : v.head? = some (opening k)) (hst : ∀ st, o = some st → st = v ++ p.rest)
 (hsuf : v ++ p.rest <:+ T) (hout : L = [] → (skipWhitespace T).head? = some (opening k))
 (h : p.close = some p') : Sound T d p' false := by
 have hline : LineText T v := fun hn => hsuf.subset (mem_append_left _ hn)
 unfold close at h
 cases hs : p.skipped with
 | cons k' ks =>
  rw [hs] at h
  dsimp only at h
  have hne : d = 0 → p.stack ≠ [] := fun hb hst' => by
   have := hp.base hb hst'
   rw [hs] at this
   simp at this
  cases ks with
  | nil =>
   rw [if_pos rfl] at h
   cases h
   simp only [levels, hs, skippedLevels, cons_append, nil_append] at hlev
   injection hlev with h1 h2
   injection h1 with _ ho
   rw [hst p.skipStart ho.symm, slice_append]
   refine Held.attach ⟨hp.depth, hp.frames, hp.root, fun _ _ => rfl⟩ ?_ (.leaf ⟨hv, hline⟩) ?_
   · simpa only [levels, skippedLevels, nil_append, h2] using hnest
   · intro hb hst'
     exact absurd hst' (hne hb)
  | cons k'' ks =>
   rw [if_neg (by simp)] at h
   cases h
   simp only [levels, hs, skippedLevels, cons_append] at hlev
   injection hlev with _ h2
   refine ⟨⟨hp.depth, hp.frames, hp.root, fun hb hst' => absurd hst' (hne hb)⟩, ?_, ?_⟩
   · simpa only [levels, h2] using hnest
   · intro _ hl
     exact absurd (levels_eq_nil hl).2 (by simp)
 | nil =>
  rw [hs] at h
  dsimp only at h
  have hlev' : p.stack.map Frame.level = (k, o) :: L := by
   simpa only [levels, hs, skippedLevels, nil_append] using hlev
  split at h
  · simp at h
  next items node stack hstk =>
   cases h
   rw [hstk] at hlev'
   injection hlev' with h1 h2
   injection h1 with hk ho
   have hf := hp.frames
   rw [hstk] at hf
   refine Held.attach ⟨hp.depth, fun f hm => hf f (mem_cons_of_mem _ hm), hp.root, fun _ _ => rfl⟩
    ?_ (hf _ (mem_cons_self ..)) ?_
   · simpa only [levels, hs, skippedLevels, nil_append, h2] using hnest
   · intro _ hst' hT
     dsimp only at hst'
     rw [hst'] at h2
     rw [hout h2.symm, ← hk] at hT
     exact absurd hT (by decide)
  next map key keyText start lossyKey node stack hstk =>
   cases h
   rw [hstk] at hlev'
   injection hlev' with h1 h2
   injection h1 with hk ho
   have hf := hp.frames
   rw [hstk] at hf
   have hnode : NodeOk T node := (hf _ (mem_cons_self ..)).1
   refine Held.attach ⟨hp.depth, fun f hm => hf f (mem_cons_of_mem _ hm), hp.root, fun _ _ => rfl⟩
    ?_ ?_ ?_
   · simpa only [levels, hs, skippedLevels, nil_append, h2] using hnest
   · split
     · obtain ⟨_, hkt, hm, hi⟩ := hnode
       refine .mk ?_ hkt hm hi
       intro kept hkept
       cases hkept
       rw [hst start ho.symm, slice_append]
       exact ⟨hv, by rw [hhead, ← hk]; rfl, hline⟩
     · exact hnode
   · intro _ _ _
     exact ⟨map, rfl⟩

/-! ## One turn -/

theorem container_sound {left : Bool} (hp : Sound T d p true) {tail : List Char}
 (hr : p.rest = opening k :: tail) (h : p.container k = some (left, p')) : Sound T d p' left := by
 obtain ⟨o, hlev, ho⟩ := p.openContainer_levels k
 have hheld := openContainer_held hp.held k
 obtain ⟨s, hs, htail⟩ := skipWhitespace_split tail
 have hqrest : (p.openContainer k).rest = tail := by rw [openContainer_rest, hr]; rfl
 have hnest := hp.nest
 rw [hr] at hnest
 have hout : p.levels = [] → (skipWhitespace T).head? = some (opening k) := by
  intro hl
  rw [hl] at hnest
  rw [top_head hnest, skipWhitespace_cons (by cases k <;> decide)]
  rfl
 simp only [container, hqrest] at h
 split at h
 · -- an empty container, closed at once
   rename_i hclose
   simp only [Option.map_eq_some_iff, Prod.mk.injEq] at h
   obtain ⟨q, hq, rfl, rfl⟩ := h
   have htext : tail = s ++ closing k :: (skipWhitespace tail).tail := by
    rw [← eq_cons_of_mem_head? hclose]
    exact htail
   have hall : opening k :: tail
    = (opening k :: (s ++ [closing k])) ++ (skipWhitespace tail).tail := by
    rw [cons_append, append_assoc]
    exact congrArg _ htext
   have hv : IsValue (opening k :: (s ++ [closing k])) := .empty k hs
   have hnest' := hnest
   rw [hall] at hnest'
   refine close_sound (hheld.rest (skipWhitespace tail).tail) hlev (hnest'.value hv) hv rfl ?_ ?_
    hout hq
   · intro st hst
     rw [ho st hst, hr, hall]
   · rw [← hall]
     exact hnest.suffix
 cases k with
 | array =>
  injection h with h
  injection h with h1 h2
  subst h1
  subst h2
  refine ⟨hheld.rest _, ?_, by simp⟩
  show Nest T (p.openContainer .array).levels true (skipWhitespace tail)
  rw [hlev]
  refine .level hnest (.array hs) ?_ (fun st hst => by rw [ho st hst, hr])
  rw [cons_append, ← htail]
  rfl
 | object =>
  simp only [Option.map_eq_some_iff, Prod.mk.injEq] at h
  obtain ⟨q, hq, rfl, rfl⟩ := h
  obtain ⟨key, name, c, hkey, hrest, hqe, hc⟩ := memberKey_sound hq
  have hkey' : IsKey (s ++ key) := by
   obtain ⟨a, w, b, ha, hw, hb, rfl⟩ := hkey
   exact ⟨s ++ a, w, b, hs.append ha, hw, hb, by simp⟩
  refine ⟨?_, ?_, by simp⟩
  · rw [hqe]
    exact pending_held ((hheld.rest (skipWhitespace tail)).rest q.rest) hc
  · have hl : q.levels = (.object, o) :: p.levels := by
     rw [hqe, pending_levels]
     exact hlev
    rw [hl]
    refine .level hnest (.object hkey' .nil) ?_ (fun st hst => by rw [ho st hst, hr])
    dsimp only at hrest
    rw [append_nil, cons_append, append_assoc, ← hrest, ← htail]
    rfl

theorem value_sound {left : Bool} (hp : Sound T d p true) (h : p.value = some (left, p')) :
 Sound T d p' left := by
 unfold value at h
 split at h
 · simp at h
 rename_i c tail hr
 have hliteral : ∀ {word : List Char} {v : Value},
  word ∈ ["true".toList, "false".toList, "null".toList] → isJsonWs c = false → c ≠ '{' →
  p.literal word v = some (left, p') → Sound T d p' left := by
  intro word v hw hws hc hl
  unfold literal at hl
  split at hl
  next hpre =>
   injection hl with hl
   injection hl with h1 h2
   subst h1
   subst h2
   have hnest := hp.nest
   rw [← prefix_iff_eq_append.mp hpre] at hnest
   exact Held.attach (hp.held.rest _) (hnest.value (.literal hw)) (.empty T)
    (fun hb hst hT => (hp.not_brace hr hws hc hb hst hT).elim)
  · simp at hl
 split at h
 next hc =>
  subst hc
  exact container_sound hp (k := .array) hr h
 split at h
 next hc =>
  subst hc
  exact container_sound hp (k := .object) hr h
 split at h
 next hc =>
  subst hc
  simp only [stringValue, Option.map_eq_some_iff, Prod.mk.injEq, Prod.exists] at h
  obtain ⟨text, canonical, rest, hs, rfl, rfl⟩ := h
  obtain ⟨w, hw, hwr⟩ := string_sound (by rw [hr]; rfl) hs
  have hnest := hp.nest
  rw [hwr] at hnest
  refine Held.attach (hp.held.rest _) (hnest.value (.string hw)) ?_
   (fun hb hst hT => (hp.not_brace hr (by decide) (by decide) hb hst hT).elim)
  unfold stringNode
  split
  next canonical =>
   split
   · exact .leaf ⟨(string_canonical hs).1, fun hn => absurd hn (string_canonical hs).2⟩
   · exact .empty T
  · exact .empty T
 split at h
 next hc =>
  exact hliteral (by simp) (by rw [hc]; decide) (by rw [hc]; decide) h
 split at h
 next hc =>
  exact hliteral (by simp) (by rw [hc]; decide) (by rw [hc]; decide) h
 split at h
 next hc =>
  exact hliteral (by simp) (by rw [hc]; decide) (by rw [hc]; decide) h
 split at h
 next hb1 hb2 _ _ _ _ hnum =>
  simp only [numberValue, Option.map_eq_some_iff, Prod.mk.injEq] at h
  obtain ⟨rest, hs, rfl, rfl⟩ := h
  obtain ⟨w, hw, hwr⟩ := numberEnd_sound hs
  have hws : isJsonWs c = false := by
   rcases hnum with rfl | hd
   · decide
   · simp only [isJsonWs, Bool.or_eq_false_iff, decide_eq_false_iff_not]
     refine ⟨⟨⟨?_, ?_⟩, ?_⟩, ?_⟩ <;>
      · rintro rfl
        exact absurd hd (by decide)
  have hnest := hp.nest
  rw [hwr] at hnest
  exact Held.attach (hp.held.rest _) (hnest.value (.number hw)) (.empty T)
   (fun hb hst hT => (hp.not_brace hr hws hb2 hb hst hT).elim)
 · simp at h

theorem separator_sound {o : Option (List Char)} (hp : Sound T d p false)
 (hlev : p.levels = (k, o) :: L) (h : p.separator k = .next e p') : Sound T d p' e := by
 have hclose : ∀ {rest : List Char}, p.rest = closing k :: rest →
  Turn.of false ({ p with rest } : Parser).close = .next e p' → Sound T d p' e := by
  intro rest hr hturn
  obtain ⟨hc, rfl⟩ := Turn.of_eq_next hturn
  have hnest := hp.nest
  rw [hlev, hr] at hnest
  obtain ⟨hn, v, hv, hhead, hst, hsuf⟩ := hnest.close
  refine close_sound (hp.held.rest rest) hlev hn hv hhead hst hsuf ?_ hc
  intro hL
  subst hL
  exact hnest.outer_head
 have hnest := hp.nest
 rw [hlev] at hnest
 cases k with
 | array =>
  simp only [separator] at h
  split at h
  next rest hr =>
   injection h with h1 h2
   subst h1
   subst h2
   rw [hr] at hnest
   refine ⟨hp.held.rest _, ?_, by simp⟩
   show Nest T p.levels true rest
   rw [hlev]
   exact hnest.comma
  next hr =>
   exact hclose hr h
  · simp at h
 | object =>
  simp only [separator] at h
  split at h
  next rest hr =>
   obtain ⟨hc, rfl⟩ := Turn.of_eq_next h
   obtain ⟨key, name, c, hkey, hrest, hqe, hcan⟩ := memberKey_sound hc
   dsimp only at hrest
   rw [hr, hrest] at hnest
   refine ⟨?_, ?_, by simp⟩
   · rw [hqe]
     exact pending_held ((hp.held.rest _).rest _) hcan
   · have hl : p'.levels = (.object, o) :: L := by
      rw [hqe, pending_levels]
      exact hlev
     rw [hl]
     exact hnest.commaKey hkey
  next hr =>
   exact hclose hr h
  · simp at h

theorem Sound.skip (h : Sound T d p e) : Sound T d { p with rest := skipWhitespace p.rest } e :=
 ⟨h.held.rest _, h.nest.skip, h.finished⟩

theorem levels_topKind (p : Parser) : p.levels.map Prod.fst = p.shape := by
 have hskip : ∀ ks s, (skippedLevels ks s).map Prod.fst = ks := by
  intro ks s
  fun_induction skippedLevels ks s <;> simp_all
 have hframe : ∀ f : Frame, f.level.1 = f.kind := by
  intro f
  cases f <;> rfl
 simp [levels, shape, hskip, hframe]

/-- **Every turn keeps the invariant.** -/
theorem Sound.turn {e' : Bool} (hp : Sound T d p e) (h : p.turn e = .next e' p') :
 Sound T d p' e' := by
 have hs := hp.skip
 simp only [Parser.turn] at h
 split at h
 next he =>
  subst he
  split at h
  next hv =>
   injection h with h1 h2
   subst h1
   subst h2
   exact value_sound hs hv
  · simp at h
 next he =>
  have he : e = false := by simpa using he
  subst he
  split at h
  · split at h <;> simp at h
  next kind hk =>
   have hl := levels_topKind { p with rest := skipWhitespace p.rest }
   cases hlev : ({ p with rest := skipWhitespace p.rest } : Parser).levels with
   | nil =>
    rw [hlev] at hl
    rw [topKind, ← hl] at hk
    simp at hk
   | cons x L =>
    obtain ⟨k, o⟩ := x
    rw [hlev] at hl
    rw [topKind, ← hl] at hk
    simp only [map_cons, head?_cons, Option.some.injEq] at hk
    subst hk
    exact separator_sound hs hlev h

theorem Sound.done (hp : Sound T d p e) (h : p.turn e = .done) :
 e = false ∧ p.levels = [] ∧ ∃ a v b, Ws a ∧ IsValue v ∧ Ws b ∧ T = a ++ (v ++ b) := by
 simp only [Parser.turn] at h
 split at h
 · split at h <;> simp at h
 next he =>
  have he : e = false := by simpa using he
  subst he
  split at h
  next hk =>
   split at h
   next hr =>
    have hl := levels_topKind { p with rest := skipWhitespace p.rest }
    have hlev : p.levels = [] := by
     cases hlev : p.levels with
     | nil => rfl
     | cons x L =>
      rw [topKind, ← hl] at hk
      have : ({ p with rest := skipWhitespace p.rest } : Parser).levels = x :: L := hlev
      rw [this] at hk
      simp at hk
    refine ⟨rfl, hlev, ?_⟩
    have hn := hp.nest.skip
    rw [hlev, hr] at hn
    cases hn with
    | @finished a v b _ ha hv hb hT => exact ⟨a, v, b, ha, hv, hb, by simpa using hT⟩
   · simp at h
  next kind _ =>
   have hof : ∀ {o : Option Parser} {b : Bool}, Turn.of b o ≠ .done := by
    intro o b
    cases o <;> simp [Turn.of]
   cases kind with
   | array =>
    simp only [separator] at h
    split at h
    · simp at h
    · exact absurd h hof
    · simp at h
   | object =>
    simp only [separator] at h
    split at h
    · exact absurd h hof
    · exact absurd h hof
    · simp at h

theorem Sound.run {q : Parser} (hp : Sound T d p e) (h : p.run e = some q) :
 Sound T d q false ∧ q.levels = [] ∧ ∃ a v b, Ws a ∧ IsValue v ∧ Ws b ∧ T = a ++ (v ++ b) := by
 fun_induction Parser.run p e with
 | case1 => simp at h
 | case2 p e hd =>
  cases h
  obtain ⟨rfl, hl, hT⟩ := hp.done hd
  exact ⟨hp, hl, hT⟩
 | case3 p e e' p' hn ih => exact ih (hp.turn hn) h

theorem sound_start (T : List Char) (depth : Nat) : Sound T depth (Parser.start T depth) true where
 held := ⟨rfl, by simp [Parser.start], by simp [Parser.start], by simp [Parser.start]⟩
 nest := .start .nil rfl
 finished := by simp

end Parser

def IsJson (T : List Char) : Prop := ∃ a v b, Ws a ∧ IsValue v ∧ Ws b ∧ T = a ++ (v ++ b)

/--
**What the reader accepts is JSON**, and what it keeps of the text can be written
back in place of the values it stands for.
-/
theorem parse_sound {T : List Char} {depth : Nat} {v : Value} {n : Node}
 (h : parseAtDepthWithNode T depth = some (v, n)) :
 IsJson T ∧ NodeOk T n
  ∧ (depth = 0 → (skipWhitespace T).head? = some '{' → ∃ m, v = .object m) := by
 obtain ⟨q, hq, hroot⟩ := Option.bind_eq_some_iff.mp h
 obtain ⟨hs, -, hT⟩ := (Parser.sound_start T depth).run hq
 obtain ⟨hn, hv⟩ := hs.held.root v n hroot
 exact ⟨hT, hn, hv⟩

end Bake.Json
