import MessageSchema.Digest.Hex

/-!
The MD5 digest. A message is padded to whole blocks of sixteen words, and sixty-four steps mix
each block into a chain of four words; the last chain, in bytes, is the digest.
-/
namespace MessageSchema
namespace Digest

abbrev Word := UInt32

structure Chain where
  a : Word
  b : Word
  c : Word
  d : Word
deriving Repr, DecidableEq

def Chain.start : Chain := ⟨0x67452301, 0xEFCDAB89, 0x98BADCFE, 0x10325476⟩

def Chain.add (x y : Chain) : Chain := ⟨x.a + y.a, x.b + y.b, x.c + y.c, x.d + y.d⟩

def rotateLeft (x : Word) (n : Word) : Word := (x <<< n) ||| (x >>> (32 - n))

/-- A round of sixteen steps mixes three words of the chain by one function, takes the words of the
block in one order, and goes through four amounts to turn by. -/
structure Round where
  mix : Word → Word → Word → Word
  order : Nat → Nat
  turns : List Word

def rounds : List Round :=
  [ ⟨fun b c d => (b &&& c) ||| (~~~b &&& d), id, [7, 12, 17, 22]⟩,
    ⟨fun b c d => (d &&& b) ||| (~~~d &&& c), fun i => (5 * i + 1) % 16, [5, 9, 14, 20]⟩,
    ⟨fun b c d => b ^^^ c ^^^ d, fun i => (3 * i + 5) % 16, [4, 11, 16, 23]⟩,
    ⟨fun b c d => c ^^^ (b ||| ~~~d), fun i => 7 * i % 16, [6, 10, 15, 21]⟩ ]

/-- The sines of one to sixty-four, without sign, as fractions of `2 ^ 32`. -/
def sines : List Word :=
  [
    0xD76AA478, 0xE8C7B756, 0x242070DB, 0xC1BDCEEE, 0xF57C0FAF, 0x4787C62A, 0xA8304613, 0xFD469501,
    0x698098D8, 0x8B44F7AF, 0xFFFF5BB1, 0x895CD7BE, 0x6B901122, 0xFD987193, 0xA679438E, 0x49B40821,
    0xF61E2562, 0xC040B340, 0x265E5A51, 0xE9B6C7AA, 0xD62F105D, 0x02441453, 0xD8A1E681, 0xE7D3FBC8,
    0x21E1CDE6, 0xC33707D6, 0xF4D50D87, 0x455A14ED, 0xA9E3E905, 0xFCEFA3F8, 0x676F02D9, 0x8D2A4C8A,
    0xFFFA3942, 0x8771F681, 0x6D9D6122, 0xFDE5380C, 0xA4BEEA44, 0x4BDECFA9, 0xF6BB4B60, 0xBEBFBC70,
    0x289B7EC6, 0xEAA127FA, 0xD4EF3085, 0x04881D05, 0xD9D4D039, 0xE6DB99E5, 0x1FA27CF8, 0xC4AC5665,
    0xF4292244, 0x432AFF97, 0xAB9423A7, 0xFC93A039, 0x655B59C3, 0x8F0CCC92, 0xFFEFF47D, 0x85845DD1,
    0x6FA87E4F, 0xFE2CE6E0, 0xA3014314, 0x4E0811A1, 0xF7537E82, 0xBD3AF235, 0x2AD7D2BB, 0xEB86D391 ]

structure Step where
  mix : Word → Word → Word → Word
  index : Nat
  turn : Word
  sine : Word

def Round.steps (r : Round) (sines : List Word) : List Step :=
  (List.range 16).map fun i =>
    ⟨r.mix, r.order i, r.turns.getD (i % 4) 0, sines.getD i 0⟩

def steps : List Step :=
  rounds.zipIdx.flatMap fun (r, i) => r.steps (sines.drop (16 * i))

def Chain.step (block : List Word) (x : Chain) (s : Step) : Chain :=
  let sum := x.a + s.mix x.b x.c x.d + s.sine + block.getD s.index 0
  ⟨x.d, x.b + rotateLeft sum s.turn, x.b, x.c⟩

def Chain.absorb (x : Chain) (block : List Word) : Chain :=
  x.add (steps.foldl (Chain.step block) x)

def littleEndian (n : Nat) : Nat → List UInt8
  | 0 => []
  | count + 1 => UInt8.ofNat n :: littleEndian (n / 256) count

theorem length_littleEndian (n count : Nat) : (littleEndian n count).length = count := by
  induction count generalizing n with
  | zero => rfl
  | succ count ih => simp [littleEndian, ih]

/-- Four bytes a word, the least first; fewer than four at the end are left out. -/
def wordsOfBytes : List UInt8 → List Word
  | a :: b :: c :: d :: rest =>
    (a.toUInt32 ||| b.toUInt32 <<< 8 ||| c.toUInt32 <<< 16 ||| d.toUInt32 <<< 24)
      :: wordsOfBytes rest
  | _ => []

/-- A one bit, zeros up to eight bytes before the end of a block, and the length in bits. -/
def padding (length : Nat) : List UInt8 :=
  0x80 :: List.replicate ((119 - length % 64) % 64) 0 ++ littleEndian (8 * length) 8

def blocks : Nat → List Word → List (List Word)
  | 0, _ => []
  | count + 1, words => words.take 16 :: blocks count (words.drop 16)

def Chain.bytes (x : Chain) : List UInt8 :=
  [x.a, x.b, x.c, x.d].flatMap fun w => littleEndian w.toNat 4

def md5 (message : List UInt8) : List UInt8 :=
  let padded := message ++ padding message.length
  let words := wordsOfBytes padded
  ((blocks (words.length / 16) words).foldl Chain.absorb Chain.start).bytes

theorem length_bytes (x : Chain) : x.bytes.length = 16 := by
  simp [Chain.bytes, length_littleEndian]

@[simp] theorem length_md5 (message : List UInt8) : (md5 message).length = 16 := length_bytes _

/-- The digest of a text in UTF-8, in hexadecimal. -/
def textDigest (text : List Char) : List Char := hex (md5 (text.flatMap String.utf8EncodeChar))

@[simp] theorem length_textDigest (text : List Char) : (textDigest text).length = 32 := by
  simp [textDigest]

/-- The digest of the empty text. -/
example : String.ofList (textDigest []) = "d41d8cd98f00b204e9800998ecf8427e" := by decide +kernel

end Digest
end MessageSchema
