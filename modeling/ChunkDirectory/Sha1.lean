/-!
# SHA-1

The hash of a byte string: the message is padded to whole blocks of 64 bytes, each block is expanded
to a schedule of 80 words, and 80 rounds per block mix it into five 32-bit words. Tree digests and
the ring positions of application identifiers are prefixes of it.
-/

namespace ChunkDirectory.Sha1

/-- The five words carried from block to block. -/
structure State where
  a : UInt32
  b : UInt32
  c : UInt32
  d : UInt32
  e : UInt32
deriving DecidableEq

/-- The words before the first block. -/
def State.start : State := ⟨0x67452301, 0xEFCDAB89, 0x98BADCFE, 0x10325476, 0xC3D2E1F0⟩

/-- The bytes of a word, most significant first. -/
def wordBytes (w : UInt32) : List UInt8 :=
  [(w >>> 24).toUInt8, (w >>> 16).toUInt8, (w >>> 8).toUInt8, w.toUInt8]

/-- Rotation to the left by `n` bits, for `n` strictly between 0 and 32. -/
def rotate (n : UInt32) (w : UInt32) : UInt32 := (w <<< n) ||| (w >>> (32 - n))

/-- What follows the message: a set bit, zeros up to eight bytes before the end of a block, and the
length of the message in bits. -/
def padding (length : Nat) : List UInt8 :=
  let zeros := (119 - length % 64) % 64
  let bits := UInt64.ofNat (8 * length)
  ((0x80 : UInt8) :: List.replicate zeros 0)
    ++ wordBytes (bits >>> 32).toUInt32 ++ wordBytes bits.toUInt32

/-- Big-endian words of a byte list whose length is a multiple of four. -/
def words : List UInt8 → List UInt32
  | a :: b :: c :: d :: rest =>
    (a.toUInt32 <<< 24 ||| b.toUInt32 <<< 16 ||| c.toUInt32 <<< 8 ||| d.toUInt32) :: words rest
  | _ => []

/-- One round: `f` is the round's boolean function, `k` its constant and `w` its schedule word. -/
def round (f : UInt32 → UInt32 → UInt32 → UInt32) (k : UInt32) (s : State) (w : UInt32) : State :=
  ⟨rotate 5 s.a + f s.b s.c s.d + s.e + k + w, s.a, rotate 30 s.b, s.c, s.d⟩

def choose (x y z : UInt32) : UInt32 := (x &&& y) ||| (~~~x &&& z)

def parity (x y z : UInt32) : UInt32 := x ^^^ y ^^^ z

def majority (x y z : UInt32) : UInt32 := (x &&& y) ||| (x &&& z) ||| (y &&& z)

/-- Extends a schedule by `n` words, each from the words 3, 8, 14 and 16 places before it. -/
def extend : Nat → Array UInt32 → Array UInt32
  | 0, w => w
  | n + 1, w =>
    let earlier (back : Nat) : UInt32 := w.getD (w.size - back) 0
    extend n (w.push (rotate 1 (earlier 3 ^^^ earlier 8 ^^^ earlier 14 ^^^ earlier 16)))

/-- Mixes one block of 16 words into the state. -/
def compress (s : State) (block : List UInt32) : State :=
  let schedule := (extend 64 block.toArray).toList
  let part (i : Nat) := (schedule.drop (20 * i)).take 20
  let t := (part 0).foldl (round choose 0x5A827999) s
  let t := (part 1).foldl (round parity 0x6ED9EBA1) t
  let t := (part 2).foldl (round majority 0x8F1BBCDC) t
  let t := (part 3).foldl (round parity 0xCA62C1D6) t
  ⟨s.a + t.a, s.b + t.b, s.c + t.c, s.d + t.d, s.e + t.e⟩

/-- Mixes `n` blocks of the padded message into the state. -/
def absorb : Nat → State → List UInt32 → State
  | 0, s, _ => s
  | n + 1, s, ws => absorb n (compress s (ws.take 16)) (ws.drop 16)

/-- The 20 bytes of the SHA-1 hash of `message`. -/
def hash (message : List UInt8) : List UInt8 :=
  let ws := words (message ++ padding message.length)
  let s := absorb (ws.length / 16) .start ws
  wordBytes s.a ++ wordBytes s.b ++ wordBytes s.c ++ wordBytes s.d ++ wordBytes s.e

end ChunkDirectory.Sha1
