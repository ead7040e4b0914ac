import Bake.Store.JsonFile

/-!
# Updates of a JSON file are serialized

Whoever holds the lock is alone with the data file and the temporary files, so what an update
read is what it replaces: the file is the object at the start with the changes of the updates
that renamed their file over it, one after another in the order of the lock. `Place.Sound` is
what an update may rely on where it stands, and `Elsewhere` what other updates leave of it.
-/

open List Option Prod Or
open OrdMap (get?)

namespace Bake.Store

variable {Obj : Type} {codec : Codec Obj}

/-- The object an update starts from. -/
def Base (codec : Codec Obj) (data : Option Node) (base : Obj) : Prop :=
 (data = none ∧ base = codec.empty)
  ∨ ∃ bytes, data = some (.file bytes) ∧ codec.read bytes = .ok base

def applied (changes : List (Obj → Obj × Bool)) (object : Obj) : Obj :=
 changes.foldl (fun object change => (change object).1) object

/-- The file behind some changes: as it was, or the text of the object they come to. -/
def Reflects (codec : Codec Obj) (start data : Option Node) (changes : List (Obj → Obj × Bool)) :
 Prop :=
 (changes = [] ∧ data = start) ∨ ∃ first text, Base codec start first
   ∧ codec.toStringPretty (applied changes first) = .ok text
   ∧ data = some (.file (Utf8.encode text))

theorem fromUtf8_encode (text : List Char) : fromUtf8 (Utf8.encode text) = some text := by
 rw [fromUtf8, Utf8.lossy_encode, if_pos rfl]

variable {text : List Char} {start : Option Node} {t : Nat}

theorem stripBom_of_head (h : text.head? ≠ some '\uFEFF') : stripBom text = text := by
 unfold stripBom
 split
 · exact absurd rfl h
 · rfl

theorem read_printed {object object' : Obj} (hp : codec.toStringPretty object = .ok text)
 (hr : codec.read (Utf8.encode text) = .ok object') : object' = object := by
 rw [Codec.read, fromUtf8_encode] at hr
 simp only [Codec.parseObject, stripBom_of_head (codec.noMark _ _ hp)] at hr
 split at hr
 next found hfound =>
  obtain rfl := Except.ok.inj hr
  exact codec.roundTrip _ _ _ hp hfound
 · simp at hr
 · simp at hr

/-- **One more change,** made to what the file holds. -/
theorem Reflects.commit {data : Option Node} {changes : List (Obj → Obj × Bool)}
 (h : Reflects codec start data changes) {base : Obj} (hb : Base codec data base)
 {change : Obj → Obj × Bool} (hp : codec.toStringPretty (change base).1 = .ok text) :
 Reflects codec start (some (.file (Utf8.encode text))) (changes ++ [change]) := by
 refine inr ?_
 rcases h with ⟨rfl, rfl⟩ | ⟨first, before, hfirst, hbefore, rfl⟩
 · exact ⟨base, text, hb, hp, rfl⟩
 · have hbase : base = applied changes first := by
    rcases hb with ⟨hnone, -⟩ | ⟨bytes, hbytes, hread⟩
    · simp at hnone
    · obtain rfl : Utf8.encode before = bytes := by simpa using hbytes
      exact read_printed hbefore hread
   refine ⟨first, text, hfirst, ?_, rfl⟩
   rw [applied, foldl_append, foldl_cons, foldl_nil, ← hp, hbase]
   rfl

/-! ## Where an update stands -/

/-- The update changed nothing yet. -/
def Pending (s : Disk Obj) (t : Nat) : Prop := ∀ change, (t, change) ∉ s.commits

/-- What an outcome says: a failed update is not among the changes, one that succeeded is, or
found nothing to change. -/
def Told (s : Disk Obj) (t : Nat) (u : Update Obj) : Except StoreError (Updated Obj) → Prop
 | .error _ => Pending s t
 | .ok updated =>
  (t, u.change) ∈ s.commits ∨ (Pending s t ∧ ∃ base, u.change base = (updated.object, false))

/-- The change an update makes to what the file holds, and its text. -/
def Prepared (codec : Codec Obj) (s : Disk Obj) (u : Update Obj) (object : Obj)
 (text : List Char) : Prop :=
 (∃ base, Base codec s.data base ∧ (u.change base).1 = object)
  ∧ codec.toStringPretty object = .ok text

/-- What holds of an update where it stands. -/
def Place.Sound (codec : Codec Obj) (s : Disk Obj) (t : Nat) : Place Obj → Prop
 | .makeDir _ | .openLock _ | .tryLock _ => t ∉ s.locked ∧ s.lock ≠ some t ∧ Pending s t
 | .listOrphans _ | .removeOrphans _ _ | .inspect _ | .openData _ =>
  s.lock = some t ∧ Pending s t
 | .inspectHandle _ node => s.lock = some t ∧ Pending s t ∧ s.data = some node
 | .readHandle _ bytes | .check _ bytes =>
  s.lock = some t ∧ Pending s t ∧ s.data = some (.file bytes)
 | .nameTemp u object text _ | .createTemp u object text _ _ =>
  s.lock = some t ∧ Pending s t ∧ Prepared codec s u object text
 | .keepAccess u object text suffix =>
  s.lock = some t ∧ Pending s t ∧ Prepared codec s u object text ∧ get? s.temps suffix = some []
 | .write u object suffix left =>
  s.lock = some t ∧ Pending s t ∧ ∃ text written, Prepared codec s u object text
   ∧ get? s.temps suffix = some written ∧ written ++ left = Utf8.encode text
 | .sync u object suffix | .rename u object suffix =>
  s.lock = some t ∧ Pending s t ∧ ∃ text, Prepared codec s u object text
   ∧ get? s.temps suffix = some (Utf8.encode text)
 | .syncDir u _ => s.lock = some t ∧ (t, u.change) ∈ s.commits
 | .dropTemp _ suffix _ =>
  s.lock = some t ∧ Pending s t ∧ ∃ written, get? s.temps suffix = some written
 | .unlock u outcome => s.lock = some t ∧ Told s t u outcome
 | .returned u outcome => s.lock ≠ some t ∧ Told s t u outcome
 | .dead _ => s.lock ≠ some t

/-- What holds of the directory. -/
structure Disk.Sound (codec : Codec Obj) (start : Option Node) (s : Disk Obj) : Prop where
 reflects : Reflects codec start s.data (s.commits.map snd)
 /-- The changes come in the order of the lock. -/
 order : (s.commits.map fst).Sublist s.locked
 nodup : s.locked.Nodup
 last : ∀ t, s.lock = some t → ∃ before, s.locked = before ++ [t]

/-! ## What an update does to the others -/

/-- What a step of another update leaves. -/
structure Elsewhere (s s' : Disk Obj) (u : Nat) : Prop where
 lock : s'.lock = some u ↔ s.lock = some u
 locked : u ∈ s'.locked ↔ u ∈ s.locked
 commits : ∀ change, (u, change) ∈ s'.commits ↔ (u, change) ∈ s.commits
 files : s.lock = some u → s'.data = s.data ∧ s'.temps = s.temps

/-- What one system call of an update does to the directory. -/
inductive Effect (s : Disk Obj) (t : Nat) : Disk Obj → Prop where
 | same : Effect s t s
 | acquire : s.lock = none → Effect s t { s with lock := some t, locked := s.locked ++ [t] }
 | temps (temps : List (String × List UInt8)) : s.lock = some t →
  Effect s t { s with temps := temps }
 | commit (data : Option Node) (temps : List (String × List UInt8))
  (change : Obj → Obj × Bool) : s.lock = some t →
  Effect s t { s with data := data, temps := temps, commits := s.commits ++ [(t, change)] }
 | release : Effect s t (s.release t)

theorem Disk.release_cases (s : Disk Obj) (t : Nat) :
 (s.lock = some t ∧ s.release t = { s with lock := none })
  ∨ (s.lock ≠ some t ∧ s.release t = s) := by
 rw [Disk.release]
 by_cases h : s.lock = some t
 · exact inl ⟨h, if_pos h⟩
 · exact inr ⟨h, if_neg h⟩

variable {s s' : Disk Obj} {c : Interleave.Config (Disk Obj) (Place Obj)}

theorem Effect.elsewhere {u : Nat} (h : Effect s t s') (hne : u ≠ t) : Elsewhere s s' u := by
 cases h with
 | same => exact ⟨Iff.rfl, Iff.rfl, fun _ => Iff.rfl, fun _ => ⟨rfl, rfl⟩⟩
 | acquire hfree =>
  refine ⟨?_, ?_, fun _ => Iff.rfl, fun _ => ⟨rfl, rfl⟩⟩
  · rw [hfree]
    simpa using fun h : t = u => hne h.symm
  · rw [mem_append, mem_singleton]
    exact or_iff_left hne
 | temps temps hlock =>
  refine ⟨Iff.rfl, Iff.rfl, fun _ => Iff.rfl, fun hu => ?_⟩
  exact absurd (some.inj (hu.symm.trans hlock)) hne
 | commit data temps change hlock =>
  refine ⟨Iff.rfl, Iff.rfl, fun _ => ?_, fun hu => ?_⟩
  · rw [mem_append, mem_singleton, mk.injEq]
    exact or_iff_left fun h => hne h.1
  · exact absurd (some.inj (hu.symm.trans hlock)) hne
 | release =>
  rcases s.release_cases t with ⟨hlock, heq⟩ | ⟨-, heq⟩ <;> rw [heq]
  · refine ⟨?_, Iff.rfl, fun _ => Iff.rfl, fun _ => ⟨rfl, rfl⟩⟩
    rw [hlock]
    simpa using fun h : t = u => hne h.symm
  · exact ⟨Iff.rfl, Iff.rfl, fun _ => Iff.rfl, fun _ => ⟨rfl, rfl⟩⟩

namespace Elsewhere

variable {s s' : Disk Obj} {u : Nat}

theorem pending (h : Elsewhere s s' u) (hp : Pending s u) : Pending s' u :=
 fun change hc => hp change ((h.commits change).mp hc)

theorem told (h : Elsewhere s s' u) {update : Update Obj}
 {outcome : Except StoreError (Updated Obj)} (ht : Told s u update outcome) :
 Told s' u update outcome := by
 cases outcome with
 | error error => exact h.pending ht
 | ok updated => exact ht.imp (h.commits _).mpr fun ⟨hp, hb⟩ => ⟨h.pending hp, hb⟩

/-- **An update keeps what it relies on** while another takes a step. -/
theorem sound (h : Elsewhere s s' u) {p : Place Obj} (hp : p.Sound codec s u) :
 p.Sound codec s' u := by
 cases p with
 | makeDir _ | openLock _ | tryLock _ =>
  exact ⟨fun hl => hp.1 (h.locked.mp hl), fun hl => hp.2.1 (h.lock.mp hl), h.pending hp.2.2⟩
 | inspectHandle _ _ | readHandle _ _ | check _ _ =>
  exact ⟨h.lock.mpr hp.1, h.pending hp.2.1, (h.files hp.1).1.trans hp.2.2⟩
 | nameTemp _ _ _ _ | createTemp _ _ _ _ _ =>
  refine ⟨h.lock.mpr hp.1, h.pending hp.2.1, ?_⟩
  rw [Prepared, (h.files hp.1).1]
  exact hp.2.2
 | keepAccess _ _ _ _ | write _ _ _ _ | sync _ _ _ | rename _ _ _ =>
  refine ⟨h.lock.mpr hp.1, h.pending hp.2.1, ?_⟩
  simp only [Prepared, (h.files hp.1).1, (h.files hp.1).2]
  exact hp.2.2
 | syncDir _ _ => exact ⟨h.lock.mpr hp.1, (h.commits _).mpr hp.2⟩
 | dropTemp _ _ _ =>
  refine ⟨h.lock.mpr hp.1, h.pending hp.2.1, ?_⟩
  rw [(h.files hp.1).2]
  exact hp.2.2
 | unlock _ _ => exact ⟨h.lock.mpr hp.1, h.told hp.2⟩
 | returned _ _ => exact ⟨fun hl => hp.1 (h.lock.mp hl), h.told hp.2⟩
 | dead _ => exact fun hl => hp (h.lock.mp hl)
 | _ =>
  exact ⟨h.lock.mpr hp.1, h.pending hp.2⟩

end Elsewhere

/-! ## What an update does for itself -/

namespace Disk

variable {s : Disk Obj} {t : Nat} {start : Option Node}

theorem Sound.temps (h : s.Sound codec start) (temps : List (String × List UInt8)) :
 Sound codec start { s with temps := temps } :=
 ⟨h.reflects, h.order, h.nodup, h.last⟩

theorem Sound.release (h : s.Sound codec start) (t : Nat) : (s.release t).Sound codec start := by
 rcases s.release_cases t with ⟨-, heq⟩ | ⟨-, heq⟩ <;> rw [heq]
 · exact ⟨h.reflects, h.order, h.nodup, fun u hu => absurd hu (by simp)⟩
 · exact h

theorem release_lock (s : Disk Obj) (t : Nat) : (s.release t).lock ≠ some t := by
 rcases s.release_cases t with ⟨-, heq⟩ | ⟨hne, heq⟩ <;> rw [heq]
 · simp
 · exact hne

theorem release_commits (s : Disk Obj) (t : Nat) : (s.release t).commits = s.commits := by
 rcases s.release_cases t with ⟨-, heq⟩ | ⟨-, heq⟩ <;> rw [heq]

theorem Sound.acquire (h : s.Sound codec start) (ht : t ∉ s.locked) :
 Sound codec start { s with lock := some t, locked := s.locked ++ [t] } := by
 refine ⟨h.reflects, h.order.trans (sublist_append_left ..), ?_, fun u hu => ?_⟩
 · refine nodup_append.mpr ⟨h.nodup, nodup_singleton t, fun a ha b hb => ?_⟩
   rw [mem_singleton.mp hb]
   exact fun hab => ht (hab ▸ ha)
 · exact ⟨s.locked, by rw [some.inj hu]⟩

/-- **The file is replaced** by an update that holds the lock. -/
theorem Sound.commit (h : s.Sound codec start) (hlock : s.lock = some t) (hp : Pending s t)
 {u : Update Obj} {object : Obj} (hprep : Prepared codec s u object text)
 (temps : List (String × List UInt8)) :
 Sound codec start { s with
  data := some (.file (Utf8.encode text)), temps := temps
  commits := s.commits ++ [(t, u.change)] } := by
 obtain ⟨⟨base, hbase, rfl⟩, htext⟩ := hprep
 obtain ⟨before, hbefore⟩ := h.last t hlock
 refine ⟨?_, ?_, h.nodup, h.last⟩
 · show Reflects codec start _ ((s.commits ++ [(t, u.change)]).map snd)
   rw [map_append]
   exact h.reflects.commit hbase htext
 show ((s.commits ++ [(t, u.change)]).map fst).Sublist s.locked
 have horder := h.order
 rw [hbefore] at horder ⊢
 rw [map_append]
 obtain ⟨front, back, hsplit, hfront, hback⟩ := sublist_append_iff.mp horder
 -- the holder's own change would be the last one, and it has none yet
 have hnone : back = [] := by
  cases back with
  | nil => rfl
  | cons a rest =>
   have ha : a = t := mem_singleton.mp (hback.subset (mem_cons_self ..))
   have hmem : a ∈ s.commits.map fst := by
    rw [hsplit]
    exact mem_append_right _ (mem_cons_self ..)
   obtain ⟨⟨_, change⟩, hc, rfl⟩ := mem_map.mp hmem
   exact absurd (ha ▸ hc) (hp change)
 rw [hsplit, hnone, append_nil]
 exact hfront.append (List.Sublist.refl _)

theorem changed_sound (hlock : s.lock = some t) (hp : Pending s t) (u : Update Obj) {base : Obj}
 (hbase : Base codec s.data base) (original : Bool) :
 (changed codec u base original).Sound codec s t := by
 unfold changed
 split
 · split
   · exact ⟨hlock, hp⟩
   next text htext =>
    split
    · exact ⟨hlock, hp⟩
    · exact ⟨hlock, hp, ⟨base, hbase, rfl⟩, htext⟩
 next hsame =>
  exact ⟨hlock, inr ⟨hp, base, by rw [← Bool.eq_false_iff.mpr hsame]⟩⟩

theorem next_crash {p p' : Place Obj}
 (hn : s.next codec t p .crash = some (s', p')) : s' = s.release t ∧ ∃ u, p' = .dead u := by
 cases p with
 | returned _ _ | dead _ => simp [next] at hn
 | removeOrphans u suffixes =>
  cases suffixes <;> exact ⟨(congrArg fst (some.inj hn)).symm, u, (congrArg snd (some.inj hn)).symm⟩
 | inspectHandle u node =>
  cases node <;> exact ⟨(congrArg fst (some.inj hn)).symm, u, (congrArg snd (some.inj hn)).symm⟩
 | write u _ _ left =>
  cases left <;> exact ⟨(congrArg fst (some.inj hn)).symm, u, (congrArg snd (some.inj hn)).symm⟩
 | makeDir u | openLock u | tryLock u | listOrphans u | inspect u | openData u
 | readHandle u _ | check u _ | nameTemp u _ _ _ | createTemp u _ _ _ _ | keepAccess u _ _ _
 | sync u _ _ | rename u _ _ | syncDir u _ | dropTemp u _ _ | unlock u _ =>
  exact ⟨(congrArg fst (some.inj hn)).symm, u, (congrArg snd (some.inj hn)).symm⟩

/-- What one system call keeps, of the directory and of its update. -/
def Keeps (codec : Codec Obj) (start : Option Node) (s : Disk Obj) (t : Nat)
 (r : Disk Obj × Place Obj) : Prop :=
 r.1.Sound codec start ∧ r.2.Sound codec r.1 t ∧ Effect s t r.1

theorem Keeps.same (h : s.Sound codec start) {p : Place Obj} (hp : p.Sound codec s t) :
 Keeps codec start s t (s, p) :=
 ⟨h, hp, .same⟩

/-- **One system call** of an update. -/
theorem next_keeps (h : s.Sound codec start) {p : Place Obj} (hp : p.Sound codec s t)
 {k : Answer} {r : Disk Obj × Place Obj} (hn : s.next codec t p k = some r) :
 Keeps codec start s t r := by
 by_cases hk : k = .crash
 · subst hk
   obtain ⟨s', p'⟩ := r
   obtain ⟨rfl, u, rfl⟩ := next_crash hn
   exact ⟨h.release t, release_lock s t, .release⟩
 cases p with
 | makeDir u | openLock u =>
  cases k with
  | go => cases hn; exact .same h hp
  | fail => cases hn; exact .same h ⟨hp.2.1, hp.2.2⟩
  | crash => exact absurd rfl hk
  | _ => simp [next] at hn
 | tryLock u =>
  cases k with
  | go =>
   rw [next] at hn
   split at hn
   next hfree =>
    cases hn; exact ⟨h.acquire hp.1, ⟨rfl, hp.2.2⟩, .acquire hfree⟩
   · cases hn; exact .same h hp
  | fail | timeout => cases hn; exact .same h ⟨hp.2.1, hp.2.2⟩
  | crash => exact absurd rfl hk
  | _ => simp [next] at hn
 | listOrphans u =>
  cases k with
  | entries suffixes | fail => cases hn; exact .same h hp
  | crash => exact absurd rfl hk
  | _ => simp [next] at hn
 | removeOrphans u suffixes =>
  cases suffixes with
  | nil =>
   cases k with
   | go => cases hn; exact .same h hp
   | crash => exact absurd rfl hk
   | _ => simp [next] at hn
  | cons suffix rest =>
   cases k with
   | go => cases hn; exact ⟨h.temps _, hp, .temps _ hp.1⟩
   | fail => cases hn; exact .same h hp
   | crash => exact absurd rfl hk
   | _ => simp [next] at hn
 | inspect u =>
  cases k with
  | go =>
   rw [next] at hn
   split at hn
   next hnone =>
    exact some.inj hn ▸ .same h (changed_sound hp.1 hp.2 u (inl ⟨hnone, rfl⟩) false)
   · cases hn; exact .same h hp
   · split at hn <;> cases hn <;> exact .same h hp
  | fail => cases hn; exact .same h hp
  | crash => exact absurd rfl hk
  | _ => simp [next] at hn
 | openData u =>
  cases k with
  | go =>
   rw [next] at hn
   split at hn
   · cases hn; exact .same h hp
   next node hnode =>
    cases hn; exact .same h ⟨hp.1, hp.2, hnode⟩
  | fail => cases hn; exact .same h hp
  | crash => exact absurd rfl hk
  | _ => simp [next] at hn
 | inspectHandle u node =>
  obtain ⟨hlock, hpend, hdata⟩ := hp
  cases node with
  | file bytes =>
   cases k with
   | go => cases hn; exact .same h ⟨hlock, hpend, hdata⟩
   | fail => cases hn; exact .same h ⟨hlock, hpend⟩
   | crash => exact absurd rfl hk
   | _ => simp [next] at hn
  | other =>
   cases k with
   | go | fail => cases hn; exact .same h ⟨hlock, hpend⟩
   | crash => exact absurd rfl hk
   | _ => simp [next] at hn
 | readHandle u bytes =>
  obtain ⟨hlock, hpend, hdata⟩ := hp
  cases k with
  | go =>
   rw [next] at hn
   split at hn
   · cases hn; exact .same h ⟨hlock, hpend⟩
   next hfits =>
    have hall : bytes.take (u.limit + 1) = bytes := by
     rw [length_take] at hfits
     exact take_of_length_le (by omega)
    rw [hall] at hn
    cases hn; exact .same h ⟨hlock, hpend, hdata⟩
  | fail => cases hn; exact .same h ⟨hlock, hpend⟩
  | crash => exact absurd rfl hk
  | _ => simp [next] at hn
 | check u bytes =>
  obtain ⟨hlock, hpend, hdata⟩ := hp
  cases k with
  | go =>
   rw [next] at hn
   split at hn
   · cases hn; exact .same h ⟨hlock, hpend⟩
   next object hread =>
    exact some.inj hn ▸ .same h (changed_sound hlock hpend u (inr ⟨bytes, hdata, hread⟩) true)
  | refuse reason => cases hn; exact .same h ⟨hlock, hpend⟩
  | crash => exact absurd rfl hk
  | _ => simp [next] at hn
 | nameTemp u object text original =>
  cases k with
  | suffix suffix => cases hn; exact .same h hp
  | fail => cases hn; exact .same h ⟨hp.1, hp.2.1⟩
  | crash => exact absurd rfl hk
  | _ => simp [next] at hn
 | createTemp u object text original suffix =>
  obtain ⟨hlock, hpend, hprep⟩ := hp
  cases k with
  | go =>
   rw [next] at hn
   split at hn
   · cases hn; exact .same h ⟨hlock, hpend⟩
   · have hget := OrdMap.get?_insert_self s.temps suffix ([] : List UInt8)
     cases hn
     refine ⟨h.temps _, ?_, .temps _ hlock⟩
     cases original with
     | true => exact ⟨hlock, hpend, hprep, hget⟩
     | false => exact ⟨hlock, hpend, text, [], hprep, hget, rfl⟩
  | fail => cases hn; exact .same h ⟨hlock, hpend⟩
  | crash => exact absurd rfl hk
  | _ => simp [next] at hn
 | keepAccess u object text suffix =>
  obtain ⟨hlock, hpend, hprep, hget⟩ := hp
  cases k with
  | go => cases hn; exact .same h ⟨hlock, hpend, text, [], hprep, hget, rfl⟩
  | fail | refuse reason => cases hn; exact .same h ⟨hlock, hpend, [], hget⟩
  | crash => exact absurd rfl hk
  | _ => simp [next] at hn
 | write u object suffix left =>
  obtain ⟨hlock, hpend, text, written, hprep, hget, hall⟩ := hp
  cases k with
  | go =>
   cases left with
   | nil =>
    rw [append_nil] at hall
    cases hn; exact .same h ⟨hlock, hpend, text, hprep, hall ▸ hget⟩
   | cons b left => simp [next] at hn
  | wrote count =>
   have hnext : s.next codec t (.write u object suffix left) (.wrote count) = some ({ s with
     temps := OrdMap.insert s.temps suffix (written ++ left.take count) },
     .write u object suffix (left.drop count)) := by
    cases left <;> simp only [next, hget]
   cases hnext.symm.trans hn
   refine ⟨h.temps _, ⟨hlock, hpend, text, _, hprep, OrdMap.get?_insert_self .., ?_⟩,
    .temps _ hlock⟩
   rw [append_assoc, take_append_drop, hall]
  | fail =>
   have hnext : s.next codec t (.write u object suffix left) .fail
    = some (s, .dropTemp u suffix (.io "write" (.temp suffix))) := by
    cases left <;> rfl
   cases hnext.symm.trans hn
   exact .same h ⟨hlock, hpend, written, hget⟩
  | crash => exact absurd rfl hk
  | _ => exact absurd hn (by cases left <;> simp [next])
 | sync u object suffix =>
  obtain ⟨hlock, hpend, text, hprep, hget⟩ := hp
  cases k with
  | go => cases hn; exact .same h ⟨hlock, hpend, text, hprep, hget⟩
  | fail => cases hn; exact .same h ⟨hlock, hpend, _, hget⟩
  | crash => exact absurd rfl hk
  | _ => simp [next] at hn
 | rename u object suffix =>
  obtain ⟨hlock, hpend, text, hprep, hget⟩ := hp
  cases k with
  | go =>
   simp only [next, hget] at hn
   cases hn
   refine ⟨h.commit hlock hpend hprep _, ⟨hlock, ?_⟩, .commit _ _ _ hlock⟩
   exact mem_append_right _ (mem_singleton_self _)
  | fail => cases hn; exact .same h ⟨hlock, hpend, _, hget⟩
  | crash => exact absurd rfl hk
  | _ => simp [next] at hn
 | syncDir u object =>
  cases k with
  | go | fail => cases hn; exact .same h ⟨hp.1, inl hp.2⟩
  | crash => exact absurd rfl hk
  | _ => simp [next] at hn
 | dropTemp u suffix error =>
  cases k with
  | go => cases hn; exact ⟨h.temps _, ⟨hp.1, hp.2.1⟩, .temps _ hp.1⟩
  | fail => cases hn; exact .same h ⟨hp.1, hp.2.1⟩
  | crash => exact absurd rfl hk
  | _ => simp [next] at hn
 | unlock u outcome =>
  cases k with
  | go =>
   cases hn; refine ⟨h.release t, ⟨release_lock s t, ?_⟩, .release⟩
   cases outcome with
   | error error => exact fun change hc => hp.2 change (release_commits s t ▸ hc)
   | ok updated =>
    show (t, u.change) ∈ (s.release t).commits ∨ _
    rw [Pending, release_commits]
    exact hp.2
  | crash => exact absurd rfl hk
  | _ => simp [next] at hn
 | returned u outcome | dead u => simp [next] at hn

end Disk

/-! ## Runs -/

theorem Effect.locked (h : Effect s t s') : ∀ u ∈ s'.locked, u ∈ s.locked ∨ u = t := by
 intro u hu
 cases h with
 | acquire hfree => exact (mem_append.mp hu).imp id mem_singleton.mp
 | release =>
  rcases s.release_cases t with ⟨-, heq⟩ | ⟨-, heq⟩ <;> exact inl (by rwa [heq] at hu)
 | _ => exact inl hu

theorem Effect.data (h : Effect s t s') :
 s'.data = s.data ∨ ∃ change, s'.commits = s.commits ++ [(t, change)] := by
 cases h with
 | commit data temps change hlock => exact inr ⟨change, rfl⟩
 | release =>
  rcases s.release_cases t with ⟨-, heq⟩ | ⟨-, heq⟩ <;> exact inl (by rw [heq])
 | _ => exact inl rfl

/-- An update with a temporary file holds the lock, and the file is there. -/
theorem Place.Sound.temp {p : Place Obj} (h : p.Sound codec s t) {suffix : String}
 (hs : p.temp = some suffix) : s.lock = some t ∧ suffix ∈ OrdMap.keys s.temps := by
 have hmem : ∀ {written}, get? s.temps suffix = some written →
  suffix ∈ OrdMap.keys s.temps := fun hget => by
  by_contra hno
  exact absurd (OrdMap.get?_eq_none.mpr hno) (by simp [hget])
 cases p with
 | keepAccess _ _ _ _ =>
  cases hs
  exact ⟨h.1, hmem h.2.2.2⟩
 | write _ _ _ _ =>
  cases hs
  obtain ⟨hlock, -, -, written, -, hget, -⟩ := h
  exact ⟨hlock, hmem hget⟩
 | sync _ _ _ | rename _ _ _ =>
  cases hs
  obtain ⟨hlock, -, text, -, hget⟩ := h
  exact ⟨hlock, hmem hget⟩
 | dropTemp _ _ _ =>
  cases hs
  obtain ⟨hlock, -, written, hget⟩ := h
  exact ⟨hlock, hmem hget⟩
 | _ => simp [Place.temp] at hs

/-- What holds of every state of a run. -/
structure Holds (codec : Codec Obj) (start : Option Node)
 (c : Interleave.Config (Disk Obj) (Place Obj)) : Prop where
 disk : c.shared.Sound codec start
 place : ∀ t (p : Place Obj), c.tasks[t]? = some p → p.Sound codec c.shared t
 known : ∀ t ∈ c.shared.locked, t < c.tasks.length

theorem Holds.spawn (h : Holds codec start c) (update : Update Obj) :
 Holds codec start { c with tasks := c.tasks ++ [.makeDir update] } := by
 refine ⟨h.disk, fun u q hu => ?_, fun u hu => ?_⟩
 · by_cases hlt : u < c.tasks.length
   · rw [getElem?_append_left hlt] at hu
     exact h.place u q hu
   · have hnew : u ∉ c.shared.locked := fun hl => hlt (h.known u hl)
     rw [getElem?_append_right (Nat.le_of_not_lt hlt)] at hu
     have hq : q = .makeDir update := by simpa using mem_of_getElem? hu
     subst hq
     refine ⟨hnew, fun hlock => ?_, fun change hc => ?_⟩
     · obtain ⟨before, hb⟩ := h.disk.last u hlock
       exact hnew (hb ▸ mem_append_right _ (mem_singleton_self u))
     · exact hnew (h.disk.order.subset (mem_map.mpr ⟨_, hc, rfl⟩))
 · have := h.known u hu
   rw [length_append]
   omega

theorem Holds.run (h : Holds codec start c) {p : Place Obj} {k : Answer} {r : Disk Obj × Place Obj}
 (ht : c.tasks[t]? = some p) (hn : c.shared.next codec t p k = some r) :
 Holds codec start { shared := r.1, tasks := c.tasks.set t r.2 } ∧ Effect c.shared t r.1 := by
 obtain ⟨hdisk, hplace, heffect⟩ := Disk.next_keeps h.disk (h.place t p ht) hn
 have hlt := (List.getElem_of_getElem? ht).1
 refine ⟨⟨hdisk, fun u q hu => ?_, fun u hu => ?_⟩, heffect⟩
 · by_cases hut : u = t
   · subst hut
     rw [getElem?_set_self hlt, some.injEq] at hu
     exact hu ▸ hplace
   · rw [getElem?_set_ne fun he => hut he.symm] at hu
     exact (heffect.elsewhere hut).sound (h.place u q hu)
 · rw [length_set]
   rcases heffect.locked u hu with hl | rfl
   · exact h.known u hl
   · exact hlt

/-- **A step of the scheduler** changes nothing of the directory, or is one update's. -/
theorem Holds.step (h : Holds codec start c) (i : Interleave.Input (Place Obj) Answer Empty) :
 Holds codec start ((updates codec).step c i) ∧ (((updates codec).step c i).shared = c.shared
   ∨ ∃ t k, i = .run t k ∧ Effect c.shared t ((updates codec).step c i).shared) := by
 cases i with
 | spawn p =>
  cases p with
  | makeDir update => exact ⟨h.spawn update, inl rfl⟩
  | _ => exact ⟨h, inl rfl⟩
 | run t k =>
  cases ht : c.tasks[t]? with
  | none =>
   have heq : (updates codec).step c (.run t k) = c := by
    simp only [Interleave.Program.step, ht]
   rw [heq]
   exact ⟨h, inl rfl⟩
  | some p =>
   cases hn : c.shared.next codec t p k with
   | none =>
    have heq : (updates codec).step c (.run t k) = c := by
     simp only [Interleave.Program.step, ht]
     rw [show (updates codec).next c.shared t p k = none from hn]
    rw [heq]
    exact ⟨h, inl rfl⟩
   | some r =>
    obtain ⟨hholds, heffect⟩ := h.run ht hn
    have heq : (updates codec).step c (.run t k)
     = { shared := r.1, tasks := c.tasks.set t r.2 } := by
     simp only [Interleave.Program.step, ht]
     rw [show (updates codec).next c.shared t p k = some r from hn]
    rw [heq]
    exact ⟨hholds, inr ⟨t, k, rfl, heffect⟩⟩
 | act e => exact e.elim

theorem Holds.reachable (h : (updates codec).Reachable (Begins start) c) : Holds codec start c := by
 refine Run.Reach.invariant (Holds codec start) (fun c hc => ?_) (fun c i hc _ => (hc.step i).1) h
 obtain ⟨⟨hdata, hlock, hlocked, hcommits⟩, htasks⟩ := hc
 refine ⟨⟨inl ⟨by rw [hcommits]; rfl, hdata⟩, ?_, ?_, fun t ht => ?_⟩, fun t p ht => ?_,
  fun t ht => ?_⟩
 · rw [hcommits]
   exact nil_sublist _
 · rw [hlocked]
   exact nodup_nil
 · exact absurd (hlock.symm.trans ht) (by simp)
 · simp [htasks] at ht
 · simp [hlocked] at ht

def Complete (codec : Codec Obj) (data : Option Node) (object : Obj) : Prop :=
 ∃ bytes, data = some (.file bytes) ∧ (codec.read bytes = .ok object
   ∨ ∃ text, codec.toStringPretty object = .ok text ∧ bytes = Utf8.encode text)

/-- **Updates are serialized, and none is lost or torn.** Whatever any number of updates do,
fail at or die at, the file is absent or whole, and holds the object at the start with the
changes of the updates that renamed their file over it, in the order they took the lock. Only
such a rename changes it; an update that fails makes none, and one that succeeds has made its
change or found nothing to change. No other update touches the temporary file of a live one. -/
theorem updates_serialized {start : Option Node} {first : Obj} (hstart : Base codec start first)
 {c : Interleave.Config (Disk Obj) (Place Obj)}
 (h : (updates codec).Reachable (Begins start) c) :
 ((c.shared.data = none ∧ c.shared.commits = [])
  ∨ Complete codec c.shared.data (applied (c.shared.commits.map snd) first))
 ∧ (c.shared.commits.map fst).Sublist c.shared.locked ∧ c.shared.locked.Nodup
 ∧ (∀ i, ((updates codec).step c i).shared.data = c.shared.data
  ∨ ∃ t change, ((updates codec).step c i).shared.commits = c.shared.commits ++ [(t, change)])
 ∧ (∀ t u error, c.tasks[t]? = some (.returned u (.error error)) →
  ∀ change, (t, change) ∉ c.shared.commits)
 ∧ (∀ t u updated, c.tasks[t]? = some (.returned u (.ok updated)) → (t, u.change) ∈ c.shared.commits
   ∨ ((∀ change, (t, change) ∉ c.shared.commits) ∧ ∃ base, u.change base = (updated.object, false)))
 ∧ ∀ t p suffix, c.tasks[t]? = some p → p.temp = some suffix → suffix ∈ OrdMap.keys c.shared.temps
   ∧ ∀ i, (∀ k, i ≠ .run t k) → ((updates codec).step c i).shared.temps = c.shared.temps := by
 have hc := Holds.reachable h
 refine ⟨?_, hc.disk.order, hc.disk.nodup, fun i => ?_, fun t u error ht => ?_,
  fun t u updated ht => ?_, fun t p suffix ht hs => ?_⟩
 · have hbase : ∀ {first'}, Base codec start first' → first' = first := by
    intro first' hb
    rcases hstart with ⟨rfl, rfl⟩ | ⟨bytes, rfl, hread⟩
    · rcases hb with ⟨-, rfl⟩ | ⟨bytes, hbytes, -⟩
      · rfl
      · simp at hbytes
    · rcases hb with ⟨hnone, -⟩ | ⟨bytes', hbytes, hread'⟩
      · simp at hnone
      · obtain rfl : bytes = bytes' := by simpa using hbytes
        exact Except.ok.inj (hread'.symm.trans hread)
   rcases hc.disk.reflects with ⟨hnone, hdata⟩ | ⟨first', text, hb, htext, hdata⟩
   · rw [map_eq_nil_iff] at hnone
     rw [hnone, hdata]
     rcases hstart with ⟨rfl, -⟩ | ⟨bytes, rfl, hread⟩
     · exact inl ⟨rfl, rfl⟩
     · exact inr ⟨bytes, rfl, inl hread⟩
   · obtain rfl := hbase hb
     exact inr ⟨_, hdata, inr ⟨text, htext, rfl⟩⟩
 · rcases (hc.step i).2 with heq | ⟨t, k, -, heffect⟩
   · exact inl (by rw [heq])
   · exact heffect.data.imp id fun ⟨change, hchange⟩ => ⟨t, change, hchange⟩
 · exact (hc.place t _ ht).2
 · exact (hc.place t _ ht).2
 · obtain ⟨hlock, hmem⟩ := (hc.place t p ht).temp hs
   refine ⟨hmem, fun i hi => ?_⟩
   rcases (hc.step i).2 with heq | ⟨u, k, rfl, heffect⟩
   · rw [heq]
   · have hne : t ≠ u := fun he => hi k (by rw [he])
     exact ((heffect.elsewhere hne).files hlock).2

def oneMember : Codec Bool where
 fromStr text :=
  if text = "\x7b\x7d".toList then .ok (some false)
  else if text = "\x7b\n  \"a\": 1\n\x7d".toList then .ok (some true)
  else .error "expected value at line 1 column 1"
 toStringPretty object :=
  .ok (if object then "\x7b\n  \"a\": 1\n\x7d".toList else "\x7b\x7d".toList)
 empty := false
 noMark := by
  rintro object text h
  obtain rfl := Except.ok.inj h
  cases object <;> decide
 roundTrip := by
  rintro object text object' h h'
  obtain rfl := Except.ok.inj h
  revert h'
  cases object <;> cases object' <;> decide

/-- An update sets the member; another one dies as it writes. -/
def setsMember : List (Interleave.Input (Place Bool) Answer Empty) :=
 [.spawn (.makeDir ⟨1024, fun _ => (true, true)⟩), .spawn (.makeDir ⟨1024, fun o => (!o, true)⟩)]
  ++ [Answer.go, .go, .go, .entries [], .go, .go, .suffix "00c0ffee00c0ffee", .go, .wrote 5,
   .wrote 50, .go, .go, .go, .fail, .go].map (.run 0)
  ++ [Answer.go, .go, .go, .fail, .go, .go, .go, .go, .go, .suffix "0123456789abcdef", .go, .go,
   .wrote 1, .crash].map (.run 1)

theorem updates_serialized_crashed :
 (((updates oneMember).run ⟨none, [], none, [], []⟩ setsMember).shared.data = none
  ∧ ((updates oneMember).run ⟨none, [], none, [], []⟩ setsMember).shared.commits = [])
  ∨ Complete oneMember ((updates oneMember).run ⟨none, [], none, [], []⟩ setsMember).shared.data
   (applied (((updates oneMember).run ⟨none, [], none, [], []⟩ setsMember).shared.commits.map
    snd) false) :=
 (@updates_serialized _ oneMember none false (inl ⟨rfl, rfl⟩) _
  (Interleave.Program.reachable_run ⟨rfl, rfl, rfl, rfl⟩ setsMember)).1

end Bake.Store
