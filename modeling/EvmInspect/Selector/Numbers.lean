import EvmInspect.Selector
import Mathlib.Tactic

namespace EvmInspect
namespace Keccak
namespace Numbers

structure Plane where
  (a b c d e : Nat)

structure Sponge where
  (p q r s t : Plane)

def Plane.xor (x y : Plane) : Plane :=
  ⟨x.a ^^^ y.a, x.b ^^^ y.b, x.c ^^^ y.c, x.d ^^^ y.d, x.e ^^^ y.e⟩

def Sponge.xor (x y : Sponge) : Sponge :=
  ⟨x.p.xor y.p, x.q.xor y.q, x.r.xor y.r, x.s.xor y.s, x.t.xor y.t⟩

def turn (n lane : Nat) : Nat :=
  lane <<< n % 2 ^ 64 ||| lane >>> (64 - n)

def mixColumns (x : Sponge) : Sponge :=
  let c := x.p.xor (x.q.xor (x.r.xor (x.s.xor x.t)))
  let d : Plane :=
    ⟨c.e ^^^ turn 1 c.b, c.a ^^^ turn 1 c.c, c.b ^^^ turn 1 c.d, c.c ^^^ turn 1 c.e,
     c.d ^^^ turn 1 c.a⟩
  ⟨x.p.xor d, x.q.xor d, x.r.xor d, x.s.xor d, x.t.xor d⟩

def scatter (x : Sponge) : Sponge where
  p := ⟨x.p.a, turn 44 x.q.b, turn 43 x.r.c, turn 21 x.s.d, turn 14 x.t.e⟩
  q := ⟨turn 28 x.p.d, turn 20 x.q.e, turn 3 x.r.a, turn 45 x.s.b, turn 61 x.t.c⟩
  r := ⟨turn 1 x.p.b, turn 6 x.q.c, turn 25 x.r.d, turn 8 x.s.e, turn 18 x.t.a⟩
  s := ⟨turn 27 x.p.e, turn 36 x.q.a, turn 10 x.r.b, turn 15 x.s.c, turn 56 x.t.d⟩
  t := ⟨turn 62 x.p.c, turn 55 x.q.d, turn 39 x.r.e, turn 41 x.s.a, turn 2 x.t.b⟩

/-- What the second lane has and the first has not are the bits of the second that the common ones
do not cancel. -/
def Plane.bend (x : Plane) : Plane :=
  ⟨x.a ^^^ (x.c ^^^ (x.b &&& x.c)), x.b ^^^ (x.d ^^^ (x.c &&& x.d)),
   x.c ^^^ (x.e ^^^ (x.d &&& x.e)), x.d ^^^ (x.a ^^^ (x.e &&& x.a)),
   x.e ^^^ (x.b ^^^ (x.a &&& x.b))⟩

def round (x : Sponge) (constant : Nat) : Sponge :=
  let y := scatter (mixColumns x)
  let p := y.p.bend
  ⟨{ p with a := p.a ^^^ constant }, y.q.bend, y.r.bend, y.s.bend, y.t.bend⟩

def permute (x : Sponge) : Sponge :=
  (roundConstants.map UInt64.toNat).foldl round x

def value : Bytes → Nat
  | [] => 0
  | b :: bytes => b.toNat + 256 * value bytes

def block (n : Nat) : Sponge :=
  let at? (i : Nat) : Nat := n >>> (64 * i) % 2 ^ 64
  let plane (i : Nat) : Plane := ⟨at? i, at? (i + 1), at? (i + 2), at? (i + 3), at? (i + 4)⟩
  ⟨plane 0, plane 5, plane 10, plane 15, plane 20⟩

def absorb : (count : Nat) → Sponge → Nat → Sponge
  | 0, x, _ => x
  | count + 1, x, n =>
    absorb count (permute (x.xor (block (n % 2 ^ (8 * rate))))) (n >>> (8 * rate))

end Numbers

open Numbers (value)

def Plane.num (x : Plane) : Numbers.Plane :=
  ⟨x.a.toNat, x.b.toNat, x.c.toNat, x.d.toNat, x.e.toNat⟩

def Sponge.num (x : Sponge) : Numbers.Sponge :=
  ⟨x.p.num, x.q.num, x.r.num, x.s.num, x.t.num⟩

theorem Plane.num_xor (x y : Plane) : (x.xor y).num = x.num.xor y.num := by
  simp [Plane.xor, Plane.num, Numbers.Plane.xor]

theorem Sponge.num_xor (x y : Sponge) : (x.xor y).num = x.num.xor y.num := by
  simp [Sponge.xor, Sponge.num, Numbers.Sponge.xor, Plane.num_xor]

theorem toNat_turn {n : UInt64} (hpos : 0 < n.toNat) (hn : n.toNat < 64) (lane : UInt64) :
    (turn n lane).toNat = Numbers.turn n.toNat lane.toNat := by
  have hle : n ≤ 64 := UInt64.le_iff_toNat_le.mpr (Nat.le_of_lt hn)
  have hrest : (64 - n).toNat = 64 - n.toNat := UInt64.toNat_sub_of_le 64 n hle
  rw [turn, Numbers.turn, UInt64.toNat_or, UInt64.toNat_shiftLeft, UInt64.toNat_shiftRight, hrest,
    Nat.mod_eq_of_lt hn, Nat.mod_eq_of_lt (by omega : 64 - n.toNat < 64)]

theorem num_mixColumns (x : Sponge) : (mixColumns x).num = Numbers.mixColumns x.num := by
  have hturn (lane : UInt64) : (turn 1 lane).toNat = Numbers.turn 1 lane.toNat :=
    toNat_turn (by decide) (by decide) lane
  simp [mixColumns, Numbers.mixColumns, Sponge.num, Plane.num, Plane.xor, Numbers.Plane.xor, hturn]

theorem num_scatter (x : Sponge) : (scatter x).num = Numbers.scatter x.num := by
  simp (disch := decide) [scatter, Numbers.scatter, Sponge.num, Plane.num, toNat_turn]

/-- What the second has and the first has not is what they have in common taken off the second. -/
theorem toNat_not_and (x y : UInt64) : (~~~x &&& y).toNat = y.toNat ^^^ (x.toNat &&& y.toNat) := by
  have hcancel : ~~~x &&& y = y ^^^ (x &&& y) := by
    apply UInt64.toBitVec_inj.mp
    ext i hi
    simp
    cases x.toBitVec[i] <;> simp
  rw [hcancel, UInt64.toNat_xor, UInt64.toNat_and]

theorem Plane.num_bend (x : Plane) : x.bend.num = x.num.bend := by
  simp only [Plane.bend, Plane.num, Numbers.Plane.bend, toNat_not_and, UInt64.toNat_xor]

theorem num_round (x : Sponge) (constant : UInt64) :
    (round x constant).num = Numbers.round x.num constant.toNat := by
  have hy : Numbers.scatter (Numbers.mixColumns x.num) = (scatter (mixColumns x)).num := by
    rw [num_scatter, num_mixColumns]
  rw [round, Numbers.round, hy]
  generalize scatter (mixColumns x) = y
  simp only [Sponge.num, ← Plane.num_bend]
  simp only [Plane.num, UInt64.toNat_xor]

theorem num_permute (x : Sponge) : (permute x).num = Numbers.permute x.num := by
  rw [permute, Numbers.permute]
  generalize roundConstants = constants
  induction constants generalizing x with
  | nil => rfl
  | cons constant constants ih =>
    rw [List.foldl_cons, List.map_cons, List.foldl_cons, ih, num_round]

theorem value_take (n : Nat) (bytes : Bytes) : value (bytes.take n) = value bytes % 256 ^ n := by
  induction bytes generalizing n with
  | nil => simp [value]
  | cons b bytes ih =>
    cases n with
    | zero => simp [value, Nat.mod_one]
    | succ n =>
      have hb : b.toNat < 256 := b.toNat_lt
      have hlow : (b.toNat + 256 * value bytes) % 256 = b.toNat := by omega
      have hhigh : (b.toNat + 256 * value bytes) / 256 = value bytes := by omega
      rw [List.take_succ_cons, value, ih, value, Nat.pow_succ', Nat.mod_mul, hlow, hhigh]

theorem value_drop (n : Nat) (bytes : Bytes) : value (bytes.drop n) = value bytes >>> (8 * n) := by
  induction bytes generalizing n with
  | nil => simp [value]
  | cons b bytes ih =>
    cases n with
    | zero => rfl
    | succ n =>
      have hb : b.toNat < 256 := b.toNat_lt
      have hhigh : (b.toNat + 256 * value bytes) >>> 8 = value bytes := by
        rw [Nat.shiftRight_eq_div_pow]
        omega
      rw [List.drop_succ_cons, ih, value, Nat.mul_succ, Nat.add_comm (8 * n),
        Nat.shiftRight_add, hhigh]

theorem value_lt (bytes : Bytes) : value bytes < 256 ^ bytes.length := by
  induction bytes with
  | nil => simp [value]
  | cons b bytes ih =>
    have hb : b.toNat < 256 := b.toNat_lt
    rw [value, List.length_cons, Nat.pow_succ]
    omega

theorem toNat_lane {bytes : Bytes} (h : bytes.length ≤ 8) : (lane bytes).toNat = value bytes := by
  induction bytes with
  | nil => rfl
  | cons b bytes ih =>
    rw [List.length_cons] at h
    have hrest : value bytes < 256 ^ 7 :=
      Nat.lt_of_lt_of_le (value_lt bytes) (Nat.pow_le_pow_right (by decide) (by omega))
    have hb : b.toNat < 2 ^ 8 := b.toNat_lt
    have hlane : lane (b :: bytes) = lane bytes <<< 8 ||| b.toUInt64 := rfl
    have hshift : (value bytes <<< 8) % 2 ^ 64 = value bytes <<< 8 := by
      rw [Nat.shiftLeft_eq]
      omega
    rw [hlane, UInt64.toNat_or, UInt64.toNat_shiftLeft, ih (by omega), UInt8.toNat_toUInt64]
    change (value bytes <<< 8) % 2 ^ 64 ||| b.toNat = value (b :: bytes)
    rw [hshift, ← Nat.shiftLeft_add_eq_or_of_lt hb, Nat.shiftLeft_eq, value]
    omega

theorem num_block (bytes : Bytes) : (block bytes).num = Numbers.block (value bytes) := by
  have hlane (i : Nat) : (lane ((bytes.drop (8 * i)).take 8)).toNat =
      value bytes >>> (64 * i) % 2 ^ 64 := by
    have hwidth : 8 * (8 * i) = 64 * i := by omega
    have hbase : 256 ^ 8 = 2 ^ 64 := by rfl
    rw [toNat_lane (List.length_take_le 8 _), value_take, value_drop, hwidth, hbase]
  simp only [block, Numbers.block, Sponge.num, Plane.num, hlane]

theorem num_absorb (count : Nat) (x : Sponge) (bytes : Bytes) :
    (absorb count x bytes).num = Numbers.absorb count x.num (value bytes) := by
  induction count generalizing x bytes with
  | zero => rfl
  | succ count ih =>
    have hrate : 256 ^ rate = 2 ^ (8 * rate) := by decide +kernel
    rw [absorb, ih, num_permute, Sponge.num_xor, num_block, value_take, value_drop, hrate,
      Numbers.absorb]

end Keccak

namespace Selector

def ofNumber (n : Nat) : Selector :=
  ⟨.ofNat n, .ofNat (n >>> 8), .ofNat (n >>> 16), .ofNat (n >>> 24)⟩

/-- The selector of a text's bytes, computed on numbers. -/
def onNumbers (signature : String) : Selector :=
  let padded := Keccak.pad signature.toByteArray.data.toList
  ofNumber (Keccak.Numbers.absorb (padded.length / Keccak.rate) Keccak.Sponge.zero.num
    (Keccak.Numbers.value padded)).p.a

theorem ofSignature_eq_onNumbers : ofSignature = onNumbers := by
  funext signature
  have hbytes : Text.Utf8.encode signature.toList = signature.toByteArray.data.toList := by
    rw [← String.utf8Encode_toList, List.utf8Encode]
    simp
    rfl
  rw [ofSignature, hbytes, Keccak.hash, onNumbers, ← Keccak.num_absorb]
  generalize Keccak.absorb _ _ _ = x
  have hbyte (n : UInt64) (h : n.toNat < 64) :
      (x.p.a >>> n).toUInt8 = UInt8.ofNat (x.p.a.toNat >>> n.toNat) := by
    change UInt8.ofNat (x.p.a >>> n).toNat = _
    rw [UInt64.toNat_shiftRight, Nat.mod_eq_of_lt h]
  simp only [Keccak.laneBytes, List.cons_append, Keccak.Sponge.num, Keccak.Plane.num, ofNumber]
  rw [hbyte 8 (by decide), hbyte 16 (by decide), hbyte 24 (by decide)]
  rfl

end Selector
end EvmInspect
