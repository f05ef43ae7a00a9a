import Stencil.Text.Hex

/-!
# SHA-256

The digest of a text.  The text is padded to whole blocks of sixty-four bytes;
each block is expanded to sixty-four words and compressed into the state.
-/

namespace Stencil.Sha256

/-- The eight words carried from block to block. -/
structure State where
  a : UInt32
  b : UInt32
  c : UInt32
  d : UInt32
  e : UInt32
  f : UInt32
  g : UInt32
  h : UInt32

/-- The state before the first block. -/
def initial : State where
  a := 0x6a09e667
  b := 0xbb67ae85
  c := 0x3c6ef372
  d := 0xa54ff53a
  e := 0x510e527f
  f := 0x9b05688c
  g := 0x1f83d9ab
  h := 0x5be0cd19

/-- The constant of each round. -/
def constants : List UInt32 :=
  [ 0x428a2f98, 0x71374491, 0xb5c0fbcf, 0xe9b5dba5, 0x3956c25b, 0x59f111f1,
    0x923f82a4, 0xab1c5ed5, 0xd807aa98, 0x12835b01, 0x243185be, 0x550c7dc3,
    0x72be5d74, 0x80deb1fe, 0x9bdc06a7, 0xc19bf174, 0xe49b69c1, 0xefbe4786,
    0x0fc19dc6, 0x240ca1cc, 0x2de92c6f, 0x4a7484aa, 0x5cb0a9dc, 0x76f988da,
    0x983e5152, 0xa831c66d, 0xb00327c8, 0xbf597fc7, 0xc6e00bf3, 0xd5a79147,
    0x06ca6351, 0x14292967, 0x27b70a85, 0x2e1b2138, 0x4d2c6dfc, 0x53380d13,
    0x650a7354, 0x766a0abb, 0x81c2c92e, 0x92722c85, 0xa2bfe8a1, 0xa81a664b,
    0xc24b8b70, 0xc76c51a3, 0xd192e819, 0xd6990624, 0xf40e3585, 0x106aa070,
    0x19a4c116, 0x1e376c08, 0x2748774c, 0x34b0bcb5, 0x391c0cb3, 0x4ed8aa4a,
    0x5b9cca4f, 0x682e6ff3, 0x748f82ee, 0x78a5636f, 0x84c87814, 0x8cc70208,
    0x90befffa, 0xa4506ceb, 0xbef9a3f7, 0xc67178f2 ]

/-- Rotates a word to the right. -/
def rotate (word : UInt32) (n : UInt32) : UInt32 :=
  (word >>> n) ||| (word <<< (32 - n))

/-- The bytes of a number, most significant first. -/
def bigEndian (width n : Nat) : Bytes :=
  (List.range width).reverse.map fun place => (n / Nat.pow 256 place % 256).toUInt8

/-- The text with a one bit, zeros and its length in bits, up to a whole number
of blocks. -/
def pad (text : Bytes) : Bytes :=
  text ++ 0x80 :: List.replicate ((119 - text.length % 64) % 64) 0 ++
    bigEndian 8 (text.length * 8)

/-- The words of a block. -/
def words : Bytes → List UInt32
  | a :: b :: c :: d :: rest =>
      ((a.toUInt32 <<< 24) ||| (b.toUInt32 <<< 16) ||| (c.toUInt32 <<< 8) ||| d.toUInt32) ::
        words rest
  | _ => []

/-- Extends the words of a block by `n` more; the latest word comes first. -/
def extend : Nat → List UInt32 → List UInt32
  | 0, latest => latest
  | n + 1, latest =>
      let word (back : Nat) : UInt32 := latest.getD (back - 1) 0
      let small0 := rotate (word 15) 7 ^^^ rotate (word 15) 18 ^^^ (word 15 >>> 3)
      let small1 := rotate (word 2) 17 ^^^ rotate (word 2) 19 ^^^ (word 2 >>> 10)
      extend n ((word 16 + small0 + word 7 + small1) :: latest)

/-- One round: mixes a word and its constant into the state. -/
def round (s : State) (word constant : UInt32) : State :=
  let big1 := rotate s.e 6 ^^^ rotate s.e 11 ^^^ rotate s.e 25
  let choice := (s.e &&& s.f) ^^^ (~~~s.e &&& s.g)
  let mixed := s.h + big1 + choice + constant + word
  let big0 := rotate s.a 2 ^^^ rotate s.a 13 ^^^ rotate s.a 22
  let majority := (s.a &&& s.b) ^^^ (s.a &&& s.c) ^^^ (s.b &&& s.c)
  { a := mixed + big0 + majority, b := s.a, c := s.b, d := s.c,
    e := s.d + mixed, f := s.e, g := s.f, h := s.g }

/-- Compresses one block into the state. -/
def compress (s : State) (block : Bytes) : State :=
  let schedule := (extend 48 (words block).reverse).reverse
  let t := (schedule.zip constants).foldl (fun s (word, constant) => round s word constant) s
  { a := s.a + t.a, b := s.b + t.b, c := s.c + t.c, d := s.d + t.d,
    e := s.e + t.e, f := s.f + t.f, g := s.g + t.g, h := s.h + t.h }

/-- Compresses `n` blocks one after the other. -/
def compressBlocks : Nat → State → Bytes → State
  | 0, s, _ => s
  | n + 1, s, text => compressBlocks n (compress s (text.take 64)) (text.drop 64)

/-- The thirty-two bytes of the digest of a text. -/
def digest (text : Bytes) : Bytes :=
  let padded := pad text
  let s := compressBlocks (padded.length / 64) initial padded
  [s.a, s.b, s.c, s.d, s.e, s.f, s.g, s.h].flatMap fun word => bigEndian 4 word.toNat

/-- The digest of a text in hexadecimal. -/
def hexDigest (text : Bytes) : Bytes :=
  Hex.ofBytes (digest text)

end Stencil.Sha256
