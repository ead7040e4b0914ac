import Bake.Update.Install

/-!
# An update never breaks the install

Most calls touch only hidden names: staging directories and temporary pointers begin with a
dot, which no release and no pointer does. `Hides` is what such a call leaves, and
`Place.Sound` what a run relies on where it stands. Three kinds of calls touch more, and none
the release that `current` names: a damaged release is set aside where the check failed, a new
one is moved where none was, and pruning spares what `current` named when it was read. That
read is the weak one, as a failed read is taken for a pointer that names nothing; the results
are about runs in which it does not fail.
-/

open Option
open List (append_assoc cons_append dropWhile_cons_of_neg dropWhile_cons_of_pos head?_cons
 isPrefixOf_iff_prefix mem_append_left mem_cons_of_mem mem_cons_self mem_filter mem_of_mem_head?
 mem_reverse mem_singleton_self nil_append not_mem_nil reverse_append reverse_reverse
 singleton_append splitOn_append_cons_self splitOn_eq_singleton)
open OrdMap (get?)

namespace Bake.Update

open Root (next pointed text)

variable {Contents : Type}

/-! ## Names -/

def Hidden (name : String) : Prop := name.toList.head? = some '.'

theorem not_hidden_version {version : String} (h : isReleaseVersion version) :
 ¬ Hidden version := by
 obtain ⟨c, rest, hv, hc⟩ := version_head h
 intro hd
 rw [Hidden, hv, head?_cons] at hd
 rw [some.inj hd] at hc
 exact absurd hc (by decide)

theorem not_hidden_pointer (pointer : Pointer) (name : Name) : ¬ Hidden (pointer.name name) := by
 cases pointer <;> cases name <;> exact fun h => absurd (some.inj h) (by decide)

theorem hidden_staging (suffix : String) : Hidden (stagingName suffix) := by
 simp [Hidden, stagingName]

theorem hidden_temp (root : Root Contents) (name : Name) (suffix : String) :
 Hidden (root.tempName name suffix) := by
 simp [Hidden, Root.tempName]

variable {name suffix : String} {names : String → Prop} {result : Except UpdateError Unit}
 {u : UpdateRun}

theorem hidden_of_dot {start : List Char} (h : ('.' :: start).isPrefixOf name.toList) :
 Hidden name := by
 obtain ⟨rest, hr⟩ := isPrefixOf_iff_prefix.mp h
 rw [Hidden, ← hr]
 rfl

theorem hidden_swept (h : isTempPointer name) : Hidden name := by
 rw [isTempPointer, Bool.or_eq_true] at h
 exact h.elim hidden_of_dot hidden_of_dot

theorem hidden_isStaging (h : isStaging name) : Hidden name := hidden_of_dot h

theorem pointer_name_ne (pointer : Pointer) : pointer.name .previous ≠ pointer.name .current := by
 cases pointer <;> decide

/-! ## What is written is read back -/

theorem not_mem_version {value : String} (h : isReleaseVersion value) {c : Char}
 (hc : isVersionChar c = false) : c ∉ value.toList :=
 fun hm => absurd (version_chars h hm) (by simp [hc])

theorem lastComponent_release {version : String} (h : isReleaseVersion version) :
 lastComponent ("releases/".toList ++ version.toList) = some version.toList := by
 obtain ⟨c, rest, hv, hc⟩ := version_head h
 have hslash : '/' ∉ version.toList := not_mem_version h (by decide)
 have hdot : c ≠ '.' := fun he => absurd (he ▸ hc) (by decide)
 have hsplit : ("releases/".toList ++ version.toList).splitOn '/'
  = ["releases".toList, version.toList] := by
  rw [show "releases/".toList = "releases".toList ++ ['/'] from rfl, append_assoc,
   singleton_append, splitOn_append_cons_self, splitOn_eq_singleton hslash]
  rfl
 rw [lastComponent, hsplit, hv]
 have hne : (c :: rest != ['.']) = true := by simp [hdot]
 simp [hdot]

theorem dropWhile_eq_self {p : Char → Bool} {text : List Char} (h : ∀ c ∈ text.head?, p c = false) :
 text.dropWhile p = text := by
 cases text with
 | nil => rfl
 | cons c rest => rw [dropWhile_cons_of_neg (by simp [h c rfl])]

theorem version_not_blank {c : Char} (h : isVersionChar c) : Ai.isWhiteSpace c = false := by
 have hr : 0x2D ≤ c.toNat ∧ c.toNat ≤ 0x7A := by
  simp only [isVersionChar, Bool.or_eq_true, beq_iff_eq] at h
  rcases h with (h | rfl) | rfl
  · have hranges : (decide (c.val ≥ 65 ∧ c.val ≤ 90)
      || decide (c.val ≥ 97) && decide (c.val ≤ 122)
      || decide (c.val ≥ 48) && decide (c.val ≤ 57)) = true := h
    simp only [Bool.or_eq_true, Bool.and_eq_true, decide_eq_true_eq, ge_iff_le,
     UInt32.le_iff_toNat_le] at hranges
    rcases hranges with (h | h) | h <;>
     exact ⟨le_trans (by decide) h.1, le_trans h.2 (by decide)⟩
  · decide
  · decide
 simp only [Ai.isWhiteSpace, Bool.or_eq_false_iff, Bool.and_eq_false_iff, decide_eq_false_iff_not]
 omega

theorem trim_line {version : String} (h : isReleaseVersion version) :
 trim (version.toList ++ ['\r', '\n']) = version.toList := by
 have hblank : ∀ c ∈ version.toList, Ai.isWhiteSpace c = false :=
  fun c hc => version_not_blank (version_chars h hc)
 obtain ⟨c, rest, hv, -⟩ := version_head h
 have hfront : (version.toList ++ ['\r', '\n']).dropWhile Ai.isWhiteSpace
  = version.toList ++ ['\r', '\n'] := by
  refine dropWhile_eq_self fun d hd => hblank d ?_
  rw [hv, cons_append, head?_cons, mem_some_iff] at hd
  rw [hv, ← hd]
  exact mem_cons_self
 have hback : version.toList.reverse.dropWhile Ai.isWhiteSpace = version.toList.reverse :=
  dropWhile_eq_self fun d hd => hblank d (mem_reverse.mp (mem_of_mem_head? hd))
 rw [trim, hfront, reverse_append,
  show ['\r', '\n'].reverse = ['\n', '\r'] from rfl, cons_append, cons_append,
  nil_append, dropWhile_cons_of_pos (by decide), dropWhile_cons_of_pos (by decide),
  hback, reverse_reverse]

/-- **A pointer names the version** it was pointed at. -/
theorem version_pointed {root : Root Contents} {version : String} (h : isReleaseVersion version)
 {name : Name} (he : root.entry name = some (root.pointed version)) :
 root.version name = some version := by
 have htext : root.text name = some version.toList := by
  rw [text, he, pointed]
  cases root.pointer with
  | link => exact lastComponent_release h
  | file => exact congrArg some (trim_line h)
 rw [Root.version, htext, map_some, String.ofList_toList]
 exact filter_some_pos h

theorem version_isRelease {root : Root Contents} {name : Name} {version : String}
 (h : root.version name = some version) : isReleaseVersion version :=
 (filter_eq_some_iff.mp h).2

/-! ## What holds of a root -/

def Root.Passes (up : Updater Contents) (root : Root Contents) (version : String) : Prop :=
 ∃ contents, get? root.releases version = some (.release contents)
  ∧ up.check contents version = .ok ()

/-- `current` names a release on disk that passes the check. -/
def Root.Works (up : Updater Contents) (root : Root Contents) : Prop :=
 ∃ version, root.version .current = some version ∧ root.Passes up version

def Newer (u : UpdateRun) (root : Root Contents) : Prop :=
 u.force = none → ∃ version, root.version .current = some version
  ∧ compareVersions u.manifest.version version = .gt

variable {up : Updater Contents} {root root' : Root Contents}

theorem checkDir_ok {dir : Option (Dir Contents)} {version : String}
 (h : up.checkDir dir version = .ok ()) :
 ∃ contents, dir = some (.release contents) ∧ up.check contents version = .ok () := by
 unfold Updater.checkDir at h
 split at h
 · exact ⟨_, rfl, h⟩
 · simp at h

theorem checkDir_passes {version : String} (h : root.Passes up version) :
 up.checkDir (get? root.releases version) version = .ok () := by
 obtain ⟨contents, hget, hcheck⟩ := h
 rw [hget]
 exact hcheck

theorem check_executable {contents : Contents} {version : String}
 (h : up.check contents version = .ok ()) : up.executable contents := by
 by_contra hno
 rw [Updater.check, if_neg hno] at h
 simp at h

/-! ## What a call leaves -/

/-- What a call leaves that touches neither `current` nor what is under the given names. -/
structure Leaves (root root' : Root Contents) (names : String → Prop) : Prop where
 pointer : root'.pointer = root.pointer
 entry : root'.entry .current = root.entry .current
 releases : ∀ name, names name → get? root'.releases name = get? root.releases name

/-- A call that touches hidden names only. -/
def Hides (root root' : Root Contents) : Prop := Leaves root root' (¬ Hidden ·)

theorem Root.version_congr (hp : root'.pointer = root.pointer) {name : Name}
 (he : root'.entry name = root.entry name) : root'.version name = root.version name := by
 rw [Root.version, Root.version, text, text, hp, he]

namespace Leaves

variable {names : String → Prop}

section

variable (h : Leaves root root' names)

include h

theorem version : root'.version .current = root.version .current :=
 Root.version_congr h.pointer h.entry

theorem passes {version : String} (hv : names version)
 (hp : root.Passes up version) : root'.Passes up version := by
 rw [Root.Passes, h.releases version hv]
 exact hp

theorem works
 (hv : ∀ version, root.version .current = some version → names version)
 (hw : root.Works up) : root'.Works up := by
 obtain ⟨version, hc, hp⟩ := hw
 exact ⟨version, h.version.trans hc, h.passes (hv version hc) hp⟩

theorem newer {u : UpdateRun} (hn : Newer u root) :
 Newer u root' := by
 rw [Newer, h.version]
 exact hn

end

end Leaves

theorem Hides.refl (root : Root Contents) : Hides root root := ⟨rfl, rfl, fun _ _ => rfl⟩

theorem ne_of_hidden {other : String} (hn : Hidden name) (ho : ¬ Hidden other) :
 other ≠ name := fun he => ho (he ▸ hn)

theorem leaves_put (root : Root Contents) (name : String) (dir : Dir Contents) :
 Leaves root (root.put name dir) (· ≠ name) :=
 ⟨rfl, rfl, fun _ ho => OrdMap.get?_insert_ne _ _ (Ne.symm ho)⟩

theorem leaves_remove (root : Root Contents) (name : String) :
 Leaves root (root.remove name) (· ≠ name) :=
 ⟨rfl, rfl, fun _ ho => by rw [Root.remove, OrdMap.get?_erase, if_neg (Ne.symm ho)]⟩

theorem leaves_cut (root : Root Contents) (name : String) (dir : Dir Contents) :
 Leaves root (root.cut name dir) (· ≠ name) := by
 unfold Root.cut
 split
 · exact leaves_put root name dir
 · exact ⟨rfl, rfl, fun _ _ => rfl⟩

theorem Leaves.hides (h : Leaves root root' (· ≠ name)) (hn : Hidden name) : Hides root root' :=
 ⟨h.pointer, h.entry, fun _ ho => h.releases _ (ne_of_hidden hn ho)⟩

theorem Leaves.trans {root'' : Root Contents} (h : Leaves root root' names)
 (h' : Leaves root' root'' names) : Leaves root root'' names :=
 ⟨h'.pointer.trans h.pointer, h'.entry.trans h.entry,
  fun n hn => (h'.releases n hn).trans (h.releases n hn)⟩

theorem Leaves.mono {names' : String → Prop} (h : Leaves root root' names)
 (hn : ∀ name, names' name → names name) : Leaves root root' names' :=
 ⟨h.pointer, h.entry, fun name ho => h.releases name (hn name ho)⟩

theorem hides_makeStaging (root : Root Contents) (suffix : String) :
 Hides root (root.makeStaging suffix) := by
 unfold Root.makeStaging
 split
 · exact .refl root
 · exact (leaves_put ..).hides (hidden_staging suffix)

theorem hides_putFile (root : Root Contents) (h : Hidden name) (entry : FileEntry) :
 Hides root (root.putFile name entry) :=
 ⟨rfl, OrdMap.get?_insert_ne _ _
  (Ne.symm (ne_of_hidden h (not_hidden_pointer root.pointer _))), fun _ _ => rfl⟩

theorem hides_removeFile (root : Root Contents) (h : Hidden name) :
 Hides root (root.removeFile name) := by
 refine ⟨rfl, ?_, fun _ _ => rfl⟩
 show get? (OrdMap.erase root.files name) (root.pointer.name .current) = _
 rw [OrdMap.get?_erase, if_neg (Ne.symm (ne_of_hidden h (not_hidden_pointer root.pointer _)))]
 rfl

theorem leaves_setAside {version : String} (h : root.setAside version suffix = some root') :
 Leaves root root' fun name => name ≠ version ∧ ¬ Hidden name := by
 unfold Root.setAside at h
 split at h
 · cases h
   exact ((leaves_remove root version).mono fun _ hn => hn.1).trans
    ((leaves_put ..).mono fun _ hn => ne_of_hidden (hidden_staging suffix) hn.2)
 · simp at h

theorem moveIn_cases {version : String} {contents : Contents}
 (hu : root.unpacked suffix = some contents) (hc : up.check contents version = .ok ())
 (h : root.moveIn up version suffix = some root') :
 (Leaves root root' fun name => name ≠ version ∧ ¬ Hidden name)
  ∧ ¬ root.Passes up version ∧ root'.Passes up version := by
 unfold Root.moveIn at h
 split at h
 next found damaged hvacant hstaging =>
  have hfound : found = contents := by
   rw [Root.unpacked, hstaging] at hu
   exact some.inj hu
  cases h
  refine ⟨((leaves_put ..).mono fun _ hn => ne_of_hidden (hidden_staging suffix) hn.2).trans
   ((leaves_put ..).mono fun _ hn => hn.1), ?_, found, OrdMap.get?_insert_self .., ?_⟩
  · rintro ⟨old, hget, hcheck⟩
    rw [hget, Updater.vacant, up.executable_ne old (check_executable hcheck)] at hvacant
    simp at hvacant
  · rw [hfound]
    exact hc
 · simp at h

/-! ## Where a run stands -/

def Move.Sound (up : Updater Contents) (root : Root Contents) : Move → Prop
 | .updatePrevious u _ | .updateCurrent u _ => Newer u root ∧ root.Passes up u.manifest.version
 | .rollbackPrevious _ previous | .rollbackCurrent _ previous =>
  isReleaseVersion previous ∧ root.Passes up previous

def Sweep.Sound (root : Root Contents) : Sweep → Prop
 | .update u => Newer u root
 | .rollback _ => True

/-- What holds of a run where it stands. -/
def Place.Sound (up : Updater Contents) (root : Root Contents) (began : Option FileEntry) :
 Place → Prop
 | .idle | .finished (.ok _) | .pruneCurrent _ _ => True
 | .fetchManifest _ | .acquireUpdate _ | .readInstalled _ | .acquireRollback | .readCurrent
 | .readPrevious _ | .cleanTemp _ _ _ | .finished (.error _) | .removeStaging _ _ (.error _) =>
  root.entry .current = began
 | .nameStaging u | .findDestination u _ | .checkDestination u _ | .makeStaging u _
 | .download u _ | .extract u _ | .checkUnpacked u _ =>
  root.entry .current = began ∧ Newer u root
 | .makeAside u _ | .setAside u _ =>
  root.entry .current = began ∧ Newer u root ∧ ¬ root.Passes up u.manifest.version
 | .makeReleases u suffix | .moveIn u suffix =>
  root.entry .current = began ∧ Newer u root ∧ ∃ contents, root.unpacked suffix = some contents
    ∧ up.check contents u.manifest.version = .ok ()
 | .removeStaging u _ (.ok ()) | .readOld u =>
  root.entry .current = began ∧ Newer u root ∧ root.Passes up u.manifest.version
 | .prunePrevious _ _ keep | .pruneList _ _ keep =>
  ∀ version, root.version .current = some version → version ∈ keep
 | .prune _ _ versions _ => ∀ version, root.version .current = some version → version ∉ versions
 | .listTemps k | .listStaging k => root.entry .current = began ∧ k.Sound root
 | .sweepTemps k names | .sweepStaging k names =>
  root.entry .current = began ∧ k.Sound root ∧ ∀ name ∈ names, Hidden name
 | .inspectPointer m | .nameTemp m | .writeTemp m _ =>
  root.entry .current = began ∧ m.Sound up root
 | .renameTemp m suffix =>
  root.entry .current = began ∧ m.Sound up root
   ∧ get? root.files (root.tempName m.name suffix) = some (root.pointed m.version)
 | .rereadCurrent _ previous | .findExecutable _ previous | .checkPrevious _ previous =>
  root.entry .current = began ∧ isReleaseVersion previous

/-- No failed read of `current` where it is taken for no pointer: by `installed`, in an update
that is not forced, and by `prune`. -/
def Place.Reads : Place → Answer Contents → Prop
 | .readInstalled u, .failed _ => u.force.isSome
 | .pruneCurrent _ _, .failed _ => False
 | _, _ => True

/-- The call moves `current`: the last of an update whose target passed the check, to a greater
version unless it is forced, or of a rollback whose target passed it. -/
def Place.Moves (up : Updater Contents) (root root' : Root Contents) : Place → Prop
 | .renameTemp (.updateCurrent u _) _ =>
  root.Passes up u.manifest.version ∧ Newer u root
   ∧ root'.version .current = some u.manifest.version
 | .renameTemp (.rollbackCurrent _ previous) _ =>
  root.Passes up previous ∧ root'.version .current = some previous
 | _ => False

structure Keeps (up : Updater Contents) (root : Root Contents) (began : Option FileEntry)
 (place : Place) (r : Root Contents × Place) : Prop where
 works : r.1.Works up
 sound : r.2.Sound up r.1 began
 moves : r.1.entry .current ≠ root.entry .current → place.Moves up root r.1
 spares : ∀ version, root.version .current = some version →
  get? r.1.releases version = get? root.releases version

variable {began : Option FileEntry} {place place' : Place}

theorem Keeps.leaves (h : Leaves root root' names) (hw : root.Works up)
 (hv : ∀ version, root.version .current = some version → names version)
 (hs : place'.Sound up root' began) : Keeps up root began place (root', place') :=
 ⟨h.works hv hw, hs, fun hne => absurd h.entry hne,
  fun version hc => h.releases version (hv version hc)⟩

theorem Keeps.hides (h : Hides root root') (hw : root.Works up)
 (hs : place'.Sound up root' began) : Keeps up root began place (root', place') :=
 .leaves h hw (fun _ hc => not_hidden_version (version_isRelease hc)) hs

theorem Keeps.same (hw : root.Works up) (hs : place'.Sound up root began) :
 Keeps up root began place (root, place') :=
 .hides (.refl root) hw hs

theorem Hides.move (h : Hides root root') {m : Move} (hm : m.Sound up root) :
 m.Sound up root' := by
 cases m with
 | updatePrevious u _ | updateCurrent u _ =>
  exact ⟨h.newer hm.1, h.passes (not_hidden_version u.manifest.isVersion) hm.2⟩
 | rollbackPrevious _ _ | rollbackCurrent _ _ =>
  exact ⟨hm.1, h.passes (not_hidden_version hm.1) hm.2⟩

theorem Hides.sweep (h : Hides root root') {k : Sweep} (hk : k.Sound root) : k.Sound root' := by
 cases k with
 | update u => exact h.newer hk
 | rollback _ => trivial

theorem Hides.staging (h : Hides root root')
 (hs : (Place.removeStaging u suffix result).Sound up root began) :
 (Place.removeStaging u suffix result).Sound up root' began := by
 cases result with
 | error error => exact h.entry.trans hs
 | ok _ =>
  obtain ⟨hb, hn, hp⟩ := hs
  exact ⟨h.entry.trans hb, h.newer hn, h.passes (not_hidden_version u.manifest.isVersion) hp⟩

theorem staged_sound (hs : (Place.removeStaging u suffix result).Sound up root began) :
 (staged u result).Sound up root began := by
 cases result with
 | error error | ok _ => exact hs

theorem swept_sound {k : Sweep} (hb : root.entry .current = began) (hk : k.Sound root) :
 k.swept.Sound up root began := by
 cases k with
 | update u => exact ⟨hb, hk⟩
 | rollback _ => exact hb

theorem pointAt_sound {m : Move} (hb : root.entry .current = began) (hm : m.Sound up root) :
 (root.pointAt m).Sound up root began := by
 unfold Root.pointAt
 split <;> exact ⟨hb, hm⟩

/-! ## The calls -/

theorem rename_cases {name : Name} {entry : FileEntry}
 (ht : get? root.files (root.tempName name suffix) = some entry)
 (h : root.rename name suffix = some root') :
 root'.pointer = root.pointer ∧ root'.releases = root.releases ∧ root'.entry name = some entry
  ∧ (name = .previous → root'.entry .current = root.entry .current) := by
 rw [Root.rename, ht] at h
 cases h
 refine ⟨rfl, rfl, OrdMap.get?_insert_self .., fun hn => ?_⟩
 subst hn
 exact (OrdMap.get?_insert_ne _ _ (pointer_name_ne _)).trans
  (hides_removeFile root (hidden_temp root .previous suffix)).entry

/-- **The moves of a pointer.** -/
theorem rename_keeps {m : Move} (hw : root.Works up)
 (hs : (Place.renameTemp m suffix).Sound up root began)
 (h : root.rename m.name suffix = some root') :
 Keeps up root began (.renameTemp m suffix) (root', root'.moved m) := by
 obtain ⟨hb, hm, ht⟩ := hs
 obtain ⟨hpointer, hreleases, hentry, hother⟩ := rename_cases ht h
 have hspares : ∀ version, root.version .current = some version →
  get? root'.releases version = get? root.releases version :=
  fun _ _ => by rw [hreleases]
 have hpasses : ∀ version, root.Passes up version → root'.Passes up version := by
  intro version hp
  rw [Root.Passes, hreleases]
  exact hp
 have hprevious : m.name = .previous → Hides root root' :=
  fun hn => ⟨hpointer, hother hn, fun _ _ => by rw [hreleases]⟩
 have hcurrent : m.name = .current → isReleaseVersion m.version →
  root'.version .current = some m.version := by
  intro hn hv
  refine version_pointed hv ?_
  rw [hn] at hentry
  rw [hentry, pointed, pointed, hpointer]
 cases m with
 | updatePrevious u old =>
  have hh := hprevious rfl
  have hu : (Move.updateCurrent u (some old)).Sound up root := hm
  exact .hides hh hw (pointAt_sound (hh.entry.trans hb) (hh.move hu))
 | updateCurrent u old =>
  have hv := hcurrent rfl u.manifest.isVersion
  exact ⟨⟨_, hv, hpasses _ hm.2⟩, trivial, fun _ => ⟨hm.2, hm.1, hv⟩, hspares⟩
 | rollbackPrevious current previous =>
  have hh := hprevious rfl
  have hr : (Move.rollbackCurrent current previous).Sound up root := hm
  exact .hides hh hw (pointAt_sound (hh.entry.trans hb) (hh.move hr))
 | rollbackCurrent current previous =>
  have hv := hcurrent rfl hm.1
  exact ⟨⟨_, hv, hpasses _ hm.2⟩, trivial, fun _ => ⟨hm.2, hv⟩, hspares⟩

theorem proceed_sound {installed : String} (hb : root.entry .current = began)
 (hc : u.force = none → root.version .current = some installed) :
 (proceed u installed).Sound up root began := by
 unfold proceed
 split
 next forced hforce =>
  exact ⟨hb, fun hnone => absurd (hforce.symm.trans hnone) (by simp)⟩
 · split
   next hgt =>
    exact ⟨hb, fun hnone => ⟨installed, hc hnone, hgt⟩⟩
   · trivial
   · exact hb

theorem received_sound (hb : root.entry .current = began) :
 (received up u).Sound up root began := by
 unfold received
 split
 · split
   · exact hb
   · split <;> exact hb
 · exact hb

theorem leaves_pruned {version : String} {rest : List String}
 (hs : ∀ current, root.version .current = some current → current ∉ version :: rest) :
 ∀ current, root.version .current = some current → current ≠ version :=
 fun current hc he => hs current hc (he ▸ mem_cons_self)

/-- **One call of a run** keeps the install working and its own ground, moves `current` only
where it is the last move of an update or of a rollback, and spares the release `current`
names. -/
theorem next_keeps (hw : root.Works up) (hs : place.Sound up root began)
 {answer : Answer Contents} (hr : place.Reads answer) {r : Root Contents × Place}
 (hn : root.next up place answer = some r) : Keeps up root began place r := by
 cases place with
 | idle | finished _ => simp [next] at hn
 | fetchManifest u =>
  cases answer with
  | ok => cases hn; exact .same hw (received_sound hs)
  | refused error => cases hn; exact .same hw hs
  | _ => simp [next] at hn
 | acquireUpdate u | acquireRollback =>
  cases answer with
  | ok | refused error => cases hn; exact .same hw hs
  | _ => simp [next] at hn
 | readInstalled u =>
  cases answer with
  | ok =>
   obtain ⟨version, hv, -⟩ := id hw
   cases hn; refine .same hw (proceed_sound hs fun _ => ?_)
   rw [hv, getD_some]
  | failed error =>
   cases hn; refine .same hw (proceed_sound hs fun hnone => ?_)
   rw [Place.Reads, hnone] at hr
   simp at hr
  | _ => simp [next] at hn
 | nameStaging u | nameTemp m =>
  cases answer with
  | suffix suffix => cases hn; exact .same hw hs
  | _ => simp [next] at hn
 | findDestination u suffix =>
  cases answer with
  | ok =>
   rw [next] at hn
   split at hn <;> cases hn <;> exact .same hw hs
  | failed error => cases hn; exact .same hw hs
  | _ => simp [next] at hn
 | checkDestination u suffix =>
  cases answer with
  | ok =>
   rw [next] at hn
   split at hn
   next hok =>
    cases hn; exact .same hw ⟨hs.1, hs.2, checkDir_ok hok⟩
   next problem herror =>
    cases hn; refine .same hw ⟨hs.1, hs.2, fun hp => ?_⟩
    exact absurd ((checkDir_passes hp).symm.trans herror) (by simp)
  | _ => simp [next] at hn
 | makeAside u suffix =>
  cases answer with
  | ok =>
   have hh := hides_makeStaging root suffix
   cases hn; refine .hides hh hw ⟨hh.entry.trans hs.1, hh.newer hs.2.1, ?_⟩
   intro hp
   refine hs.2.2 ?_
   rw [Root.Passes, ← hh.releases _ (not_hidden_version u.manifest.isVersion)]
   exact hp
  | failed error => cases hn; exact .same hw hs.1
  | _ => simp [next] at hn
 | setAside u suffix =>
  cases answer with
  | ok =>
   obtain ⟨root', hset, rfl⟩ := map_eq_some_iff.mp hn
   have hl := leaves_setAside hset
   refine .leaves hl hw (fun version hc => ?_) ⟨hl.entry.trans hs.1, hl.newer hs.2.1⟩
   obtain ⟨current, hv, hp⟩ := hw
   cases hc.symm.trans hv
   exact ⟨fun he => hs.2.2 (he ▸ hp), not_hidden_version (version_isRelease hv)⟩
  | failed error => cases hn; exact .same hw hs.1
  | _ => simp [next] at hn
 | makeStaging u suffix =>
  cases answer with
  | ok =>
   have hh := hides_makeStaging root suffix
   cases hn; exact .hides hh hw ⟨hh.entry.trans hs.1, hh.newer hs.2⟩
  | failed error => cases hn; exact .same hw hs.1
  | _ => simp [next] at hn
 | download u suffix =>
  cases answer with
  | ok => cases hn; exact .same hw hs
  | refused error => cases hn; exact .same hw hs.1
  | _ => simp [next] at hn
 | extract u suffix =>
  cases answer with
  | ok => cases hn; exact .same hw hs
  | refused error => cases hn; exact .same hw hs.1
  | wrote contents =>
   rw [next] at hn
   split at hn
   next unpacked damaged hstaging =>
    have hh := (leaves_put root (stagingName suffix)
     (.staging (some contents) damaged)).hides (hidden_staging suffix)
    cases hn; exact .hides hh hw ⟨hh.entry.trans hs.1, hh.newer hs.2⟩
   · simp at hn
  | _ => simp [next] at hn
 | checkUnpacked u suffix =>
  cases answer with
  | ok =>
   rw [next] at hn
   split at hn
   next hok =>
    obtain ⟨contents, hmap, hcheck⟩ := checkDir_ok hok
    obtain ⟨found, hfound, hdir⟩ := map_eq_some_iff.mp hmap
    obtain rfl := Dir.release.inj hdir
    cases hn; exact .same hw ⟨hs.1, hs.2, found, hfound, hcheck⟩
   · cases hn; exact .same hw hs.1
  | _ => simp [next] at hn
 | makeReleases u suffix =>
  cases answer with
  | ok => cases hn; exact .same hw hs
  | failed error => cases hn; exact .same hw hs.1
  | _ => simp [next] at hn
 | moveIn u suffix =>
  cases answer with
  | ok =>
   obtain ⟨root', hmove, rfl⟩ := map_eq_some_iff.mp hn
   obtain ⟨hb, hnewer, contents, hunpacked, hcheck⟩ := hs
   obtain ⟨hl, hno, hyes⟩ := moveIn_cases hunpacked hcheck hmove
   refine .leaves hl hw (fun version hc => ?_) ⟨hl.entry.trans hb, hl.newer hnewer, hyes⟩
   obtain ⟨current, hv, hp⟩ := hw
   cases hc.symm.trans hv
   exact ⟨fun he => hno (he ▸ hp), not_hidden_version (version_isRelease hv)⟩
  | failed error => cases hn; exact .same hw hs.1
  | _ => simp [next] at hn
 | removeStaging u suffix result =>
  cases answer with
  | ok =>
   have hh := (leaves_remove root (stagingName suffix)).hides (hidden_staging suffix)
   cases hn; exact .hides hh hw (staged_sound (hh.staging hs))
  | left dir =>
   have hh := (leaves_cut root (stagingName suffix) dir).hides (hidden_staging suffix)
   cases hn; exact .hides hh hw (hh.staging hs)
  | failed error => cases hn; exact .same hw (staged_sound hs)
  | _ => simp [next] at hn
 | readOld u =>
  obtain ⟨hb, hnewer, hpasses⟩ := hs
  cases answer with
  | ok =>
   rw [next] at hn
   split at hn <;> cases hn <;> exact .same hw (pointAt_sound hb ⟨hnewer, hpasses⟩)
  | failed error =>
   cases hn; exact .same hw (pointAt_sound hb ⟨hnewer, hpasses⟩)
  | _ => simp [next] at hn
 | pruneCurrent u old =>
  cases answer with
  | ok =>
   cases hn; refine .same hw fun version hc => ?_
   rw [hc]
   exact mem_singleton_self _
  | failed error => exact absurd hr id
  | _ => simp [next] at hn
 | prunePrevious u old keep =>
  cases answer with
  | ok =>
   exact some.inj hn ▸ .same hw fun version hc => mem_append_left _ (hs version hc)
  | failed error => cases hn; exact .same hw hs
  | _ => simp [next] at hn
 | pruneList u old keep =>
  cases answer with
  | names names =>
   cases hn; refine .same hw fun version hc hmem => ?_
   exact absurd (hs version hc) (by simpa using (mem_filter.mp hmem).2)
  | failed error => cases hn; exact .same hw fun _ _ => not_mem_nil
  | _ => simp [next] at hn
 | prune u old versions pruned =>
  cases versions with
  | nil =>
   cases answer with
   | ok => cases hn; exact .same hw trivial
   | _ => simp [next] at hn
  | cons version rest =>
   cases answer with
   | ok =>
    have hl := leaves_remove root version
    cases hn; refine .leaves hl hw (leaves_pruned hs) fun current hc => ?_
    exact fun hmem => hs current (hl.version.symm.trans hc) (mem_cons_of_mem _ hmem)
   | left dir =>
    have hl := leaves_cut root version dir
    cases hn; refine .leaves hl hw (leaves_pruned hs) fun current hc => ?_
    exact hs current (hl.version.symm.trans hc)
   | failed error =>
    cases hn; refine .same hw fun current hc hmem => ?_
    exact hs current hc (mem_cons_of_mem _ hmem)
   | _ => simp [next] at hn
 | listTemps k =>
  cases answer with
  | names names =>
   cases hn; refine .same hw ⟨hs.1, hs.2, fun name hmem => ?_⟩
   exact hidden_swept (mem_filter.mp hmem).2
  | failed error => cases hn; exact .same hw hs
  | _ => simp [next] at hn
 | sweepTemps k names =>
  obtain ⟨hb, hk, hnames⟩ := hs
  cases names with
  | nil =>
   cases answer with
   | ok => cases hn; exact .same hw ⟨hb, hk⟩
   | _ => simp [next] at hn
  | cons name rest =>
   have hrest := fun other hmem => hnames other (mem_cons_of_mem _ hmem)
   cases answer with
   | ok =>
    have hh := hides_removeFile root (hnames name mem_cons_self)
    cases hn; exact .hides hh hw ⟨hh.entry.trans hb, hh.sweep hk, hrest⟩
   | failed error => cases hn; exact .same hw ⟨hb, hk, hrest⟩
   | _ => simp [next] at hn
 | listStaging k =>
  cases answer with
  | names names =>
   cases hn; refine .same hw ⟨hs.1, hs.2, fun name hmem => ?_⟩
   exact hidden_isStaging (mem_filter.mp hmem).2
  | failed error => cases hn; exact .same hw (swept_sound hs.1 hs.2)
  | _ => simp [next] at hn
 | sweepStaging k names =>
  obtain ⟨hb, hk, hnames⟩ := hs
  cases names with
  | nil =>
   cases answer with
   | ok => cases hn; exact .same hw (swept_sound hb hk)
   | _ => simp [next] at hn
  | cons name rest =>
   have hname := hnames name mem_cons_self
   have hrest := fun other hmem => hnames other (mem_cons_of_mem _ hmem)
   cases answer with
   | ok =>
    have hh := (leaves_remove root name).hides hname
    cases hn; exact .hides hh hw ⟨hh.entry.trans hb, hh.sweep hk, hrest⟩
   | left dir =>
    have hh := (leaves_cut root name dir).hides hname
    cases hn; exact .hides hh hw ⟨hh.entry.trans hb, hh.sweep hk, hnames⟩
   | failed error => cases hn; exact .same hw ⟨hb, hk, hrest⟩
   | _ => simp [next] at hn
 | inspectPointer m =>
  cases answer with
  | ok =>
   rw [next] at hn
   split at hn
   · cases hn; exact .same hw hs.1
   · cases hn; exact .same hw hs.1
   · cases hn; exact .same hw hs
  | failed error => cases hn; exact .same hw hs
  | _ => simp [next] at hn
 | writeTemp m suffix =>
  cases answer with
  | ok =>
   have hh := hides_putFile root (hidden_temp root m.name suffix) (root.pointed m.version)
   exact some.inj hn ▸ .hides hh hw ⟨hh.entry.trans hs.1, hh.move hs.2, OrdMap.get?_insert_self ..⟩
  | part text =>
   have hh := hides_putFile root (hidden_temp root m.name suffix) (.file text)
   cases hn; exact .hides hh hw ⟨hh.entry.trans hs.1, hh.move hs.2⟩
  | failed error => cases hn; exact .same hw hs.1
  | _ => simp [next] at hn
 | renameTemp m suffix =>
  cases answer with
  | ok =>
   obtain ⟨root', hrename, rfl⟩ := map_eq_some_iff.mp hn
   exact rename_keeps hw hs hrename
  | failed error => cases hn; exact .same hw hs.1
  | _ => simp [next] at hn
 | cleanTemp m suffix error =>
  cases answer with
  | ok =>
   have hh := hides_removeFile root (hidden_temp root m.name suffix)
   cases hn; exact .hides hh hw (hh.entry.trans hs)
  | failed _ => cases hn; exact .same hw hs
  | _ => simp [next] at hn
 | readCurrent =>
  cases answer with
  | ok =>
   rw [next] at hn
   split at hn
   · cases hn; exact .same hw hs
   · cases hn; exact .same hw ⟨hs, trivial⟩
  | failed error => cases hn; exact .same hw hs
  | _ => simp [next] at hn
 | readPrevious current =>
  cases answer with
  | ok =>
   rw [next] at hn
   split at hn
   · cases hn; exact .same hw trivial
   next previous hp =>
    cases hn; exact .same hw ⟨hs, version_isRelease hp⟩
  | failed error => cases hn; exact .same hw trivial
  | _ => simp [next] at hn
 | rereadCurrent current previous =>
  cases answer with
  | ok =>
   rw [next] at hn
   split at hn
   · cases hn; exact .same hw trivial
   · cases hn; exact .same hw hs
  | failed error => cases hn; exact .same hw hs
  | _ => simp [next] at hn
 | findExecutable current previous =>
  cases answer with
  | ok =>
   rw [next] at hn
   split at hn
   · split at hn
     · cases hn; exact .same hw hs
     · cases hn; exact .same hw trivial
   · cases hn; exact .same hw trivial
  | failed error => cases hn; exact .same hw trivial
  | _ => simp [next] at hn
 | checkPrevious current previous =>
  cases answer with
  | ok =>
   rw [next] at hn
   split at hn
   next hok =>
    cases hn; exact .same hw (pointAt_sound hs.1 ⟨hs.2, checkDir_ok hok⟩)
   · cases hn; exact .same hw hs.1
  | _ => simp [next] at hn

/-! ## Runs -/

/-- No read of `current` fails where it decides. -/
def Readable (s : Install Contents) : Input Contents → Prop
 | .answer answer => s.place.Reads answer
 | .start _ | .crash => True

def Begins (up : Updater Contents) (s : Install Contents) : Prop :=
 s.place = .idle ∧ s.root.Works up

/-- What a state owes: the install works, and a run that failed left `current` as it was. -/
structure Install.Works (up : Updater Contents) (s : Install Contents) : Prop where
 works : s.root.Works up
 restored : ∀ error, s.place = .finished (.error error) → s.root.entry .current = s.began

/-- What a step owes: it moves `current` only as the last move of an update or of a rollback
whose target passed the check, and spares the release `current` names. -/
structure Install.Spares (up : Updater Contents) (s s' : Install Contents) : Prop where
 moves : s'.root.entry .current ≠ s.root.entry .current → s.place.Moves up s.root s'.root
 spares : ∀ version, s.root.version .current = some version →
  get? s'.root.releases version = get? s.root.releases version

def Unbroken (up : Updater Contents) (guard : Install Contents → Input Contents → Prop) : Prop :=
 ∀ s, Run.Reach (Begins up) (Install.step up) guard s →
  s.Works up ∧ ∀ i, guard s i → s.Spares up (s.step up i)

/-- What holds of every state of a run. -/
structure Install.Sound (up : Updater Contents) (s : Install Contents) : Prop where
 works : s.root.Works up
 place : s.place.Sound up s.root s.began

theorem Install.Sound.step {s : Install Contents} (h : s.Sound up) {i : Input Contents}
 (hg : Readable s i) : (s.step up i).Sound up ∧ s.Spares up (s.step up i) := by
 cases i with
 | start request =>
  rw [Install.step]
  split
  · refine ⟨⟨h.works, ?_⟩, fun hne => absurd rfl hne, fun _ _ => rfl⟩
    cases request <;> exact rfl
  · exact ⟨h, fun hne => absurd rfl hne, fun _ _ => rfl⟩
 | answer answer =>
  simp only [Install.step]
  split
  next root place hn =>
   obtain ⟨hworks, hsound, hmoves, hspares⟩ := next_keeps h.works h.place hg hn
   exact ⟨⟨hworks, hsound⟩, hmoves, hspares⟩
  · exact ⟨h, fun hne => absurd rfl hne, fun _ _ => rfl⟩
 | crash => exact ⟨⟨h.works, trivial⟩, fun hne => absurd rfl hne, fun _ _ => rfl⟩

/-- **An update never breaks the install** in a run in which no read of `current` fails that
`prune` makes, or `installed` for an update that is not forced: at every moment `current`
names a release on disk that passes the check. -/
theorem unbroken_of_readable (up : Updater Contents) : Unbroken up Readable := by
 intro s hreach
 have hsound : s.Sound up := by
  refine hreach.invariant (Install.Sound up) (fun s hs => ⟨hs.2, ?_⟩) fun s i h hg => (h.step hg).1
  rw [hs.1]
  trivial
 refine ⟨⟨hsound.works, fun error he => ?_⟩, fun i hg => (hsound.step hg).2⟩
 have hplace := hsound.place
 rw [he] at hplace
 exact hplace

/-! ## A read that fails -/

def everyRuns : Updater Unit where
 target := "linux-x64"
 executable := fun _ => true
 empty := fun _ => false
 run := fun _ _ _ => .ok ()
 executable_ne := fun _ _ => rfl

def oneInstalled : Install Unit where
 root := {
  path := "/bake"
  pointer := .link
  files := [("current", .link "releases/0.4.0".toList)]
  releases := [("0.4.0", .release ())] }
 place := .idle
 began := none

def toNext : UpdateRun where
 manifest := { version := "0.4.1", artifacts := ["linux-x64"], isVersion := by decide +kernel }
 force := none
 running := "0.4.0"

/-- An update to `0.4.1` in which all goes well but `prune`'s read of `current`. -/
def failedRead : List (Input Unit) :=
 .start (.update toNext) :: [.ok, .ok, .ok, .names [], .ok, .names [], .ok, .suffix "1", .ok, .ok,
  .ok, .wrote (), .ok, .ok, .ok, .ok, .ok, .ok, .ok, .suffix "2", .ok, .ok, .ok, .suffix "3", .ok,
  .ok, .failed "EIO", .ok, .names ["0.4.0", "0.4.1"], .ok].map .answer

/-- **A failed read breaks the install**: the release just made current is pruned. -/
theorem not_unbroken : ¬ Unbroken everyRuns fun _ _ => True := by
 intro h
 have hbegins : Begins everyRuns oneInstalled :=
  ⟨rfl, "0.4.0", by decide +kernel, (), rfl, rfl⟩
 obtain ⟨⟨version, hcurrent, contents, hget, -⟩, -⟩ :=
  (h _ ((Run.Reach.init hbegins).final_free (fun _ _ => trivial) failedRead)).1
 have hnow : (Run.final (Install.step everyRuns) oneInstalled failedRead).root.version .current
  = some "0.4.1" := by decide +kernel
 have hgone : (get? (Run.final (Install.step everyRuns) oneInstalled
  failedRead).root.releases "0.4.1").isNone = true := by decide +kernel
 cases hcurrent.symm.trans hnow
 rw [hget] at hgone
 simp at hgone

end Bake.Update
