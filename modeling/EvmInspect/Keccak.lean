import EvmInspect.Bytes

namespace EvmInspect.Keccak

structure Plane where
  (a b c d e : UInt64)

structure Sponge where
  (p q r s t : Plane)

def Plane.zero : Plane :=
  ⟨0, 0, 0, 0, 0⟩

def Sponge.zero : Sponge :=
  ⟨.zero, .zero, .zero, .zero, .zero⟩

def Plane.xor (x y : Plane) : Plane :=
  ⟨x.a ^^^ y.a, x.b ^^^ y.b, x.c ^^^ y.c, x.d ^^^ y.d, x.e ^^^ y.e⟩

def Sponge.xor (x y : Sponge) : Sponge :=
  ⟨x.p.xor y.p, x.q.xor y.q, x.r.xor y.r, x.s.xor y.s, x.t.xor y.t⟩

def turn (n : UInt64) (lane : UInt64) : UInt64 :=
  (lane <<< n) ||| (lane >>> (64 - n))

/-- Adds to each lane the parity of the column before it and of the turned column behind it. -/
def mixColumns (x : Sponge) : Sponge :=
  let c := x.p.xor (x.q.xor (x.r.xor (x.s.xor x.t)))
  let d : Plane :=
    ⟨c.e ^^^ turn 1 c.b, c.a ^^^ turn 1 c.c, c.b ^^^ turn 1 c.d, c.c ^^^ turn 1 c.e,
     c.d ^^^ turn 1 c.a⟩
  ⟨x.p.xor d, x.q.xor d, x.r.xor d, x.s.xor d, x.t.xor d⟩

/-- Turns each lane by its own amount and moves it to its next place. -/
def scatter (x : Sponge) : Sponge where
  p := ⟨x.p.a, turn 44 x.q.b, turn 43 x.r.c, turn 21 x.s.d, turn 14 x.t.e⟩
  q := ⟨turn 28 x.p.d, turn 20 x.q.e, turn 3 x.r.a, turn 45 x.s.b, turn 61 x.t.c⟩
  r := ⟨turn 1 x.p.b, turn 6 x.q.c, turn 25 x.r.d, turn 8 x.s.e, turn 18 x.t.a⟩
  s := ⟨turn 27 x.p.e, turn 36 x.q.a, turn 10 x.r.b, turn 15 x.s.c, turn 56 x.t.d⟩
  t := ⟨turn 62 x.p.c, turn 55 x.q.d, turn 39 x.r.e, turn 41 x.s.a, turn 2 x.t.b⟩

/-- Adds to each lane what the two lanes behind it have in the second and not in the first. -/
def Plane.bend (x : Plane) : Plane :=
  ⟨x.a ^^^ (~~~x.b &&& x.c), x.b ^^^ (~~~x.c &&& x.d), x.c ^^^ (~~~x.d &&& x.e),
   x.d ^^^ (~~~x.e &&& x.a), x.e ^^^ (~~~x.a &&& x.b)⟩

def round (x : Sponge) (constant : UInt64) : Sponge :=
  let y := scatter (mixColumns x)
  let p := y.p.bend
  ⟨{ p with a := p.a ^^^ constant }, y.q.bend, y.r.bend, y.s.bend, y.t.bend⟩

def roundConstants : List UInt64 := [
  0x0000000000000001, 0x0000000000008082, 0x800000000000808a, 0x8000000080008000,
  0x000000000000808b, 0x0000000080000001, 0x8000000080008081, 0x8000000000008009,
  0x000000000000008a, 0x0000000000000088, 0x0000000080008009, 0x000000008000000a,
  0x000000008000808b, 0x800000000000008b, 0x8000000000008089, 0x8000000000008003,
  0x8000000000008002, 0x8000000000000080, 0x000000000000800a, 0x800000008000000a,
  0x8000000080008081, 0x8000000000008080, 0x0000000080000001, 0x8000000080008008]

def permute (x : Sponge) : Sponge :=
  roundConstants.foldl round x

def lane (bytes : Bytes) : UInt64 :=
  bytes.foldr (fun b acc => (acc <<< 8) ||| b.toUInt64) 0

/-- The lanes that a block of 136 bytes fills; the last eight stay zero. -/
def block (bytes : Bytes) : Sponge :=
  let at? (i : Nat) : UInt64 := lane ((bytes.drop (8 * i)).take 8)
  let plane (i : Nat) : Plane := ⟨at? i, at? (i + 1), at? (i + 2), at? (i + 3), at? (i + 4)⟩
  ⟨plane 0, plane 5, plane 10, plane 15, plane 20⟩

def rate : Nat := 136

/-- The message filled up to whole blocks: a first bit, zeros, and a last bit. -/
def pad (message : Bytes) : Bytes :=
  match rate - 1 - message.length % rate with
  | 0 => message ++ [0x81]
  | gap + 1 => message ++ 0x01 :: (List.replicate gap 0 ++ [0x80])

def absorb : (count : Nat) → Sponge → Bytes → Sponge
  | 0, x, _ => x
  | count + 1, x, bytes =>
    absorb count (permute (x.xor (block (bytes.take rate)))) (bytes.drop rate)

def laneBytes (x : UInt64) : Bytes :=
  [x.toUInt8, (x >>> 8).toUInt8, (x >>> 16).toUInt8, (x >>> 24).toUInt8,
   (x >>> 32).toUInt8, (x >>> 40).toUInt8, (x >>> 48).toUInt8, (x >>> 56).toUInt8]

def hash (message : Bytes) : Bytes :=
  let padded := pad message
  let x := absorb (padded.length / rate) .zero padded
  laneBytes x.p.a ++ laneBytes x.p.b ++ laneBytes x.p.c ++ laneBytes x.p.d

theorem length_hash (message : Bytes) : (hash message).length = 32 := by
  simp [hash, laneBytes]

end EvmInspect.Keccak
