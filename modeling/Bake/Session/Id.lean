import Mathlib.Algebra.GroupWithZero.Nat
import Mathlib.Data.List.Pairwise
import Mathlib.Order.Basic
import Mathlib.Tactic.Common

/-!
# Session ids

A session id is a version 7 UUID: a 48-bit timestamp, a 41-bit sequence cut around the version
and variant bits, and random bits behind it. The state is the process's: the timestamp never
steps back, and the sequence starts at a random 40-bit value.
-/

namespace Bake.Session

/-- `MAX_UUID_V7_TIMESTAMP`. -/
def maxUuidV7Timestamp : Int := 0xffffffffffff

/-- `MAX_SEQUENCE`. -/
def maxSequence : Nat := 2 ^ 41 - 1

/-- What the process keeps between two ids. -/
structure V7State where
 lastTimestamp : Int := -1
 sequence : Option Nat := none

def hexByte (byte : Nat) : List Char := [Nat.digitChar (byte / 16), Nat.digitChar (byte % 16)]

/-- `format_uuid` of the 16 bytes. -/
def formatUuid (b : Fin 16 → Nat) : List Char :=
 hexByte (b 0) ++ hexByte (b 1) ++ hexByte (b 2) ++ hexByte (b 3)
  ++ '-' :: hexByte (b 4) ++ hexByte (b 5) ++ '-' :: hexByte (b 6) ++ hexByte (b 7)
  ++ '-' :: hexByte (b 8) ++ hexByte (b 9) ++ '-' :: hexByte (b 10) ++ hexByte (b 11)
  ++ hexByte (b 12) ++ hexByte (b 13) ++ hexByte (b 14) ++ hexByte (b 15)

/-- The first value of a sequence. -/
def seed (random : Fin 16 → UInt8) : Nat :=
 (random 1).toNat <<< 32 ||| (random 2).toNat <<< 24 ||| (random 3).toNat <<< 16
  ||| (random 4).toNat <<< 8 ||| (random 5).toNat

/-- The bytes of an id: six of the timestamp, the sequence, and what is left of the random
ones. -/
def v7Bytes (timestamp sequence : Nat) (random : Fin 16 → UInt8) (index : Fin 16) : Nat :=
 match index with
 | 6 => 0x70 ||| sequence >>> 37 &&& 0x0f
 | 7 => sequence >>> 29 &&& 0xff
 | 8 => 0x80 ||| sequence >>> 23 &&& 0x3f
 | 9 => sequence >>> 15 &&& 0xff
 | 10 => sequence >>> 7 &&& 0xff
 | 11 => (sequence &&& 0x7f) <<< 1 ||| (random 11).toNat &&& 0x01
 | index =>
  if index.val < 6 then timestamp >>> ((5 - index.val) * 8) % 256 else (random index).toNat

/-- `uuid_v7`: the id, and the state left behind. -/
def uuidV7 (state : V7State) (now : Int) (random : Fin 16 → UInt8) : List Char × V7State :=
 let requested := min (max now 0) maxUuidV7Timestamp
 let timestamp := max requested state.lastTimestamp
 let sequence := match state.sequence with
  | some sequence => if sequence < maxSequence then sequence + 1 else seed random
  | none => seed random
 (formatUuid (v7Bytes timestamp.toNat sequence random),
  { lastTimestamp := timestamp, sequence := some sequence })

/-- The ids of calls made one after the other. -/
def uuidV7s (state : V7State) : List (Int × (Fin 16 → UInt8)) → List (List Char)
 | [] => []
 | (now, random) :: calls =>
  (uuidV7 state now random).1 :: uuidV7s (uuidV7 state now random).2 calls

/-! ## The order of two ids -/

theorem hexByte_append_lt {a b : Nat} {x y : List Char} (ha : a < 256) (hb : b < 256)
 (h : a < b ∨ a = b ∧ x < y) : hexByte a ++ x < hexByte b ++ y := by
 have hdigit : ∀ m < 16, ∀ n < m, Nat.digitChar n < Nat.digitChar m := by decide
 simp only [hexByte, List.cons_append, List.nil_append, List.cons_lt_cons_iff]
 rcases h with h | ⟨rfl, h⟩
 · rcases Nat.lt_or_ge (a / 16) (b / 16) with hhigh | hhigh
   · exact .inl (hdigit _ (by omega) _ hhigh)
   · have heq : a / 16 = b / 16 := by omega
     exact .inr ⟨congrArg _ heq, .inl (hdigit _ (by omega) _ (by omega))⟩
 · exact .inr ⟨rfl, .inr ⟨rfl, h⟩⟩

/-- The order of two numbers is that of their high digits, then of what is below them. -/
theorem mod_lt_cases {x y n m : Nat} {P : Prop} (hn : 0 < n)
 (h : x % (n * m) < y % (n * m) ∨ x % (n * m) = y % (n * m) ∧ P) :
 x / n % m < y / n % m ∨ x / n % m = y / n % m ∧ (x % n < y % n ∨ x % n = y % n ∧ P) := by
 rw [Nat.mod_mul, Nat.mod_mul] at h
 have hx := Nat.mod_lt x hn
 have hy := Nat.mod_lt y hn
 rcases Nat.lt_trichotomy (x / n % m) (y / n % m) with hlt | heq | hgt
 · exact .inl hlt
 · rw [heq] at h
   exact .inr ⟨heq, h.imp (by omega) fun h => ⟨by omega, h.2⟩⟩
 · have := Nat.mul_le_mul_left n hgt
   rw [Nat.mul_succ] at this
   omega

/-- What the bytes around the version and variant bits are as numbers. -/
theorem v7Bytes_sequence (timestamp sequence : Nat) (random : Fin 16 → UInt8) :
 v7Bytes timestamp sequence random 6 = 112 + sequence / 2 ^ 37 % 16
  ∧ v7Bytes timestamp sequence random 7 = sequence / 2 ^ 29 % 256
  ∧ v7Bytes timestamp sequence random 8 = 128 + sequence / 2 ^ 23 % 64
  ∧ v7Bytes timestamp sequence random 9 = sequence / 2 ^ 15 % 256
  ∧ v7Bytes timestamp sequence random 10 = sequence / 2 ^ 7 % 256
  ∧ v7Bytes timestamp sequence random 11 = 2 * (sequence % 128) + (random 11).toNat % 2 := by
 have h7 : ∀ n < 16, 0x70 ||| n = 112 + n := by decide
 have h8 : ∀ n < 64, 0x80 ||| n = 128 + n := by decide
 have h11 : ∀ n < 128, ∀ r < 2, n <<< 1 ||| r = 2 * n + r := by decide
 have hand : ∀ x k, x &&& (2 ^ k - 1) = x % 2 ^ k := Nat.and_two_pow_sub_one_eq_mod
 refine ⟨?_, ?_, ?_, ?_, ?_, ?_⟩
 · rw [← h7 _ (Nat.mod_lt _ (by decide)), ← Nat.shiftRight_eq_div_pow]
   exact congrArg (0x70 ||| ·) (hand _ 4)
 · rw [← Nat.shiftRight_eq_div_pow]
   exact hand _ 8
 · rw [← h8 _ (Nat.mod_lt _ (by decide)), ← Nat.shiftRight_eq_div_pow]
   exact congrArg (0x80 ||| ·) (hand _ 6)
 · rw [← Nat.shiftRight_eq_div_pow]
   exact hand _ 8
 · rw [← Nat.shiftRight_eq_div_pow]
   exact hand _ 8
 · rw [← h11 _ (Nat.mod_lt _ (by decide)) _ (Nat.mod_lt _ (by decide))]
   exact congrArg₂ (fun n r => n <<< 1 ||| r) (hand _ 7) (hand _ 1)

theorem v7Bytes_timestamp (timestamp sequence : Nat) (random : Fin 16 → UInt8) :
 v7Bytes timestamp sequence random 0 = timestamp / 2 ^ 40 % 256
  ∧ v7Bytes timestamp sequence random 1 = timestamp / 2 ^ 32 % 256
  ∧ v7Bytes timestamp sequence random 2 = timestamp / 2 ^ 24 % 256
  ∧ v7Bytes timestamp sequence random 3 = timestamp / 2 ^ 16 % 256
  ∧ v7Bytes timestamp sequence random 4 = timestamp / 2 ^ 8 % 256
  ∧ v7Bytes timestamp sequence random 5 = timestamp / 2 ^ 0 % 256 := by
 simp only [← Nat.shiftRight_eq_div_pow]
 exact ⟨rfl, rfl, rfl, rfl, rfl, rfl⟩

/-- A byte of two numbers decides the order of texts in which it is written, or leaves it to
the bits below it. -/
theorem hexByte_mod_lt {a b : Nat} (n : Nat) {x y : List Char} {P : Prop} (hn : 0 < n)
 (h : a % (n * 256) < b % (n * 256) ∨ a % (n * 256) = b % (n * 256) ∧ P)
 (hxy : a % n < b % n ∨ a % n = b % n ∧ P → x < y) :
 hexByte (a / n % 256) ++ x < hexByte (b / n % 256) ++ y :=
 hexByte_append_lt (Nat.mod_lt _ (by decide)) (Nat.mod_lt _ (by decide))
  ((mod_lt_cases hn h).imp_right (And.imp_right hxy))

/-- The same for the bits below a byte's mark. -/
theorem hexByte_marked_lt {a b : Nat} (mark n m : Nat) {x y : List Char} (hn : 0 < n) (hm : 0 < m)
 (hmark : mark + m ≤ 256) (h : a % (n * m) < b % (n * m)) (hxy : a % n < b % n → x < y) :
 hexByte (mark + a / n % m) ++ x < hexByte (mark + b / n % m) ++ y := by
 have ha := Nat.mod_lt (a / n) hm
 have hb := Nat.mod_lt (b / n) hm
 refine hexByte_append_lt (by omega) (by omega) ?_
 rcases @mod_lt_cases a b n m False hn (.inl h) with hlt | ⟨heq, hlow⟩
 · exact .inl (Nat.add_lt_add_left hlt mark)
 · exact .inr ⟨congrArg (mark + ·) heq, hxy (hlow.resolve_right And.right)⟩

theorem hyphen_lt {x y : List Char} (h : x < y) : '-' :: x < '-' :: y :=
 List.cons_lt_cons_iff.mpr (.inr ⟨rfl, h⟩)

/-- **A later timestamp, or the same one and a later place of the sequence, makes a greater
id,** whatever the random bytes. -/
theorem formatUuid_lt {t t' s s' : Nat} (random random' : Fin 16 → UInt8) (ht : t ≤ t')
 (ht' : t' < 2 ^ 48) (hs : s < s') (hs' : s' < 2 ^ 41) :
 formatUuid (v7Bytes t s random) < formatUuid (v7Bytes t' s' random') := by
 obtain ⟨h0, h1, h2, h3, h4, h5⟩ := v7Bytes_timestamp t s random
 obtain ⟨k0, k1, k2, k3, k4, k5⟩ := v7Bytes_timestamp t' s' random'
 obtain ⟨h6, h7, h8, h9, h10, h11⟩ := v7Bytes_sequence t s random
 obtain ⟨k6, k7, k8, k9, k10, k11⟩ := v7Bytes_sequence t' s' random'
 simp only [formatUuid, List.append_assoc, List.cons_append, h0, h1, h2, h3, h4, h5, h6, h7, h8,
  h9, h10, h11, k0, k1, k2, k3, k4, k5, k6, k7, k8, k9, k10, k11]
 have hstart : t % (2 ^ 40 * 256) < t' % (2 ^ 40 * 256)
  ∨ t % (2 ^ 40 * 256) = t' % (2 ^ 40 * 256) ∧ s % (2 ^ 37 * 16) < s' % (2 ^ 37 * 16) := by
  rw [Nat.mod_eq_of_lt (by omega), Nat.mod_eq_of_lt (by omega), Nat.mod_eq_of_lt (by omega),
   Nat.mod_eq_of_lt (by omega)]
  omega
 -- the timestamp's bytes, from the highest
 refine hexByte_mod_lt (2 ^ 40) (by decide) hstart fun h => ?_
 refine hexByte_mod_lt (2 ^ 32) (by decide) h fun h => ?_
 refine hexByte_mod_lt (2 ^ 24) (by decide) h fun h => ?_
 refine hexByte_mod_lt (2 ^ 16) (by decide) h fun h => hyphen_lt ?_
 refine hexByte_mod_lt (2 ^ 8) (by decide) h fun h => ?_
 refine hexByte_mod_lt (2 ^ 0) (by decide) h fun h => hyphen_lt ?_
 -- the sequence's, where the timestamps are the same
 have h : s % (2 ^ 37 * 16) < s' % (2 ^ 37 * 16) := (h.resolve_left (by omega)).2
 refine hexByte_marked_lt 112 (2 ^ 37) 16 (by decide) (by decide) (by decide) h fun h => ?_
 refine hexByte_mod_lt (P := False) (2 ^ 29) (by decide) (.inl h) fun h => hyphen_lt ?_
 have h : s % (2 ^ 23 * 64) < s' % (2 ^ 23 * 64) := h.resolve_right fun h => h.2
 refine hexByte_marked_lt 128 (2 ^ 23) 64 (by decide) (by decide) (by decide) h fun h => ?_
 refine hexByte_mod_lt (P := False) (2 ^ 15) (by decide) (.inl h) fun h => hyphen_lt ?_
 refine hexByte_mod_lt (2 ^ 7) (by decide) h fun h => ?_
 have h : s % 2 ^ 7 < s' % 2 ^ 7 := h.resolve_right fun h => h.2
 exact hexByte_append_lt (by omega) (by omega) (.inl (by omega))

theorem formatUuid_marks (b : Fin 16 → Nat) : (formatUuid b)[14]? = some (Nat.digitChar (b 6 / 16))
  ∧ (formatUuid b)[19]? = some (Nat.digitChar (b 8 / 16)) := by
 simp [formatUuid, hexByte]

theorem v7_marks (t s : Nat) (random : Fin 16 → UInt8) :
 (formatUuid (v7Bytes t s random))[14]? = some '7'
  ∧ ∃ c ∈ ['8', '9', 'a', 'b'], (formatUuid (v7Bytes t s random))[19]? = some c := by
 have hversion : ∀ n < 16, Nat.digitChar ((112 + n) / 16) = '7' := by decide
 have hvariant : ∀ n < 64, Nat.digitChar ((128 + n) / 16) ∈ ['8', '9', 'a', 'b'] := by decide
 obtain ⟨hsix, height⟩ := formatUuid_marks (v7Bytes t s random)
 obtain ⟨h6, -, h8, -, -, -⟩ := v7Bytes_sequence t s random
 obtain ⟨n, hn, hn'⟩ : ∃ n < 16, v7Bytes t s random 6 = 112 + n := ⟨_, Nat.mod_lt _ (by decide), h6⟩
 obtain ⟨m, hm, hm'⟩ : ∃ m < 64, v7Bytes t s random 8 = 128 + m := ⟨_, Nat.mod_lt _ (by decide), h8⟩
 rw [hn', hversion n hn] at hsix
 rw [hm'] at height
 exact ⟨hsix, _, hvariant m hm, height⟩

/-! ## Runs -/

theorem seed_lt (random : Fin 16 → UInt8) : seed random < 2 ^ 40 := by
 have hbyte := fun j => (random j).toNat_lt
 simp only [seed, Nat.shiftLeft_eq]
 refine Nat.or_lt_two_pow (Nat.or_lt_two_pow (Nat.or_lt_two_pow (Nat.or_lt_two_pow ?_ ?_) ?_) ?_) ?_
 · have := hbyte 1
   omega
 · have := hbyte 2
   omega
 · have := hbyte 3
   omega
 · have := hbyte 4
   omega
 · have := hbyte 5
   omega

theorem uuidV7_spec {state : V7State} (hlast : state.lastTimestamp ≤ maxUuidV7Timestamp) (now : Int)
 (random : Fin 16 → UInt8) :
 ∃ (t s : Nat), (uuidV7 state now random).1 = formatUuid (v7Bytes t s random)
  ∧ state.lastTimestamp ≤ t ∧ (t : Int) ≤ maxUuidV7Timestamp
  ∧ (uuidV7 state now random).2 = { lastTimestamp := t, sequence := some s }
  ∧ (state.sequence = none → s < 2 ^ 40)
  ∧ ∀ last, state.sequence = some last → last < maxSequence → s = last + 1 := by
 obtain ⟨timestamp, ht⟩ : ∃ timestamp,
  max (min (max now 0) maxUuidV7Timestamp) state.lastTimestamp = timestamp := ⟨_, rfl⟩
 have hmax : maxUuidV7Timestamp = 281474976710655 := rfl
 refine ⟨timestamp.toNat, _, by rw [uuidV7, ht], by omega, by omega, ?_, fun hnone => ?_,
  fun last hlast hlt => ?_⟩
 · simp only [uuidV7, ht]
   rw [Int.toNat_of_nonneg (by omega)]
 · rw [hnone]
   exact seed_lt random
 · rw [hlast]
   exact if_pos hlt

theorem uuidV7s_after (calls : List (Int × (Fin 16 → UInt8))) : ∀ {state : V7State} {last : Nat},
 state.lastTimestamp ≤ maxUuidV7Timestamp → state.sequence = some last →
 last + calls.length < 2 ^ 41 →
 (uuidV7s state calls).Pairwise (· < ·)
  ∧ ∀ text ∈ uuidV7s state calls, ∃ (t s : Nat) (random : Fin 16 → UInt8),
   text = formatUuid (v7Bytes t s random) ∧ state.lastTimestamp ≤ t ∧ t < 2 ^ 48 ∧ last < s
    ∧ s < 2 ^ 41 := by
 induction calls with
 | nil => exact fun _ _ _ => ⟨.nil, by simp [uuidV7s]⟩
 | cons call calls ih =>
  intro state last hlast hseq hlen
  obtain ⟨now, random⟩ := call
  obtain ⟨t, s, htext, htime, hmax, hstate, -, hnext⟩ := uuidV7_spec hlast now random
  have hmaxTimestamp : maxUuidV7Timestamp = 281474976710655 := rfl
  have hmaxSequence : maxSequence = 2199023255551 := rfl
  rw [List.length_cons] at hlen
  have hs := hnext last hseq (by omega)
  obtain ⟨hpairs, hall⟩ := @ih (uuidV7 state now random).2 s
   (by rw [hstate]; exact hmax) (by rw [hstate]) (by omega)
  rw [hstate] at hpairs hall
  rw [uuidV7s, htext, hstate]
  refine ⟨List.pairwise_cons.mpr ⟨fun text hin => ?_, hpairs⟩, fun text hin => ?_⟩
  · obtain ⟨t', s', random', rfl, ht, ht', hs, hs'⟩ := hall text hin
    exact formatUuid_lt _ _ (Int.ofNat_le.mp ht) ht' hs hs'
  · rcases List.mem_cons.mp hin with rfl | hin
    · exact ⟨t, s, random, rfl, htime, by omega, by omega, by omega⟩
    · obtain ⟨t', s', random', rfl, ht, ht', hs, hs'⟩ := hall text hin
      exact ⟨t', s', random', rfl, by simp only at ht; omega, ht', by omega, hs'⟩

/-- **Ids are ordered:** the ids of a process's calls strictly increase, whatever the clock and
the random source give, and each is of version 7 and of the standard's variant. -/
theorem uuidV7s_ordered (calls : List (Int × (Fin 16 → UInt8))) (h : calls.length < 2 ^ 40) :
 (uuidV7s {} calls).Pairwise (· < ·) ∧ (uuidV7s {} calls).Nodup
  ∧ ∀ text ∈ uuidV7s {} calls, text[14]? = some '7'
   ∧ ∃ c ∈ ['8', '9', 'a', 'b'], text[19]? = some c := by
 suffices hids : (uuidV7s {} calls).Pairwise (· < ·)
  ∧ ∀ text ∈ uuidV7s {} calls, ∃ (t s : Nat) (random : Fin 16 → UInt8),
   text = formatUuid (v7Bytes t s random) by
  refine ⟨hids.1, hids.1.imp fun hlt heq => ?_, fun text hin => ?_⟩
  · rw [heq] at hlt
    exact absurd hlt (List.lt_irrefl _)
  · obtain ⟨t, s, random, rfl⟩ := hids.2 text hin
    exact v7_marks t s random
 cases calls with
 | nil => exact ⟨.nil, by simp [uuidV7s]⟩
 | cons call calls =>
  obtain ⟨now, random⟩ := call
  obtain ⟨t, s, htext, htime, hmax, hstate, hseed, -⟩ :=
   @uuidV7_spec {} (by decide) now random
  have hmaxTimestamp : maxUuidV7Timestamp = 281474976710655 := rfl
  have hs := hseed rfl
  rw [List.length_cons] at h
  obtain ⟨hpairs, hall⟩ := @uuidV7s_after calls (uuidV7 {} now random).2 s
   (by rw [hstate]; exact hmax) (by rw [hstate]) (by omega)
  rw [hstate] at hpairs hall
  rw [uuidV7s, htext, hstate]
  refine ⟨List.pairwise_cons.mpr ⟨fun text hin => ?_, hpairs⟩, fun text hin => ?_⟩
  · obtain ⟨t', s', random', rfl, ht, ht', hs, hs'⟩ := hall text hin
    exact formatUuid_lt _ _ (Int.ofNat_le.mp ht) ht' hs hs'
  · rcases List.mem_cons.mp hin with rfl | hin
    · exact ⟨t, s, random, rfl⟩
    · obtain ⟨t', s', random', rfl, -⟩ := hall text hin
      exact ⟨t', s', random', rfl⟩

theorem uuidV7s_ordered_two : (uuidV7s {} [(5, fun _ => 255), (-1, fun _ => 0)]).Pairwise (· < ·)
  ∧ (uuidV7s {} [(5, fun _ => 255), (-1, fun _ => 0)]).Nodup
  ∧ ∀ text ∈ uuidV7s {} [(5, fun _ => 255), (-1, fun _ => 0)], text[14]? = some '7'
   ∧ ∃ c ∈ ['8', '9', 'a', 'b'], text[19]? = some c :=
 uuidV7s_ordered _ (by decide)

end Bake.Session
