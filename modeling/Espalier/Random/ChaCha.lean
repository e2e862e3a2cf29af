/-!
# A ChaCha stream of words

The stream cipher ChaCha with twelve rounds, an all-zero nonce and a 64-bit block counter,
used as a source of random words: each block of sixteen 32-bit words is read as eight 64-bit
words, the lower half first. `Stream.ofSeed` stretches a 64-bit seed to the 256-bit key.
-/

namespace Espalier.ChaCha

def rotateLeft (x : UInt32) (n : UInt32) : UInt32 := (x <<< n) ||| (x >>> (32 - n))

/-- The sixteen words of a state. -/
abbrev Block := Vector UInt32 16

/-- Mixes the four words at the given places. -/
def quarterRound (s : Block) (a b c d : Fin 16) : Block :=
  let s := s.set a (s[a] + s[b])
  let s := s.set d (rotateLeft (s[d] ^^^ s[a]) 16)
  let s := s.set c (s[c] + s[d])
  let s := s.set b (rotateLeft (s[b] ^^^ s[c]) 12)
  let s := s.set a (s[a] + s[b])
  let s := s.set d (rotateLeft (s[d] ^^^ s[a]) 8)
  let s := s.set c (s[c] + s[d])
  s.set b (rotateLeft (s[b] ^^^ s[c]) 7)

/-- A round down the columns and one along the diagonals. -/
def doubleRound (s : Block) : Block :=
  let s := quarterRound s 0 4 8 12
  let s := quarterRound s 1 5 9 13
  let s := quarterRound s 2 6 10 14
  let s := quarterRound s 3 7 11 15
  let s := quarterRound s 0 5 10 15
  let s := quarterRound s 1 6 11 12
  let s := quarterRound s 2 7 8 13
  quarterRound s 3 4 9 14

/-- The state a block starts from: constants, key, counter and an all-zero nonce. -/
def initial (key : Vector UInt32 8) (counter : UInt64) : Block :=
  #v[0x61707865, 0x3320646e, 0x79622d32, 0x6b206574,
    key[0], key[1], key[2], key[3], key[4], key[5], key[6], key[7],
    counter.toUInt32, (counter >>> 32).toUInt32, 0, 0]

def doubleRounds : Nat → Block → Block
  | 0, s => s
  | n + 1, s => doubleRounds n (doubleRound s)

def block (key : Vector UInt32 8) (counter : UInt64) : Block :=
  let start := initial key counter
  (doubleRounds 6 start).zipWith (· + ·) start

def Block.words (b : Block) : Array UInt64 :=
  Array.ofFn fun i : Fin 8 => b[2 * i.val].toUInt64 ||| (b[2 * i.val + 1].toUInt64 <<< 32)

/-- A stream: the key, the counter of the next block, and what is left of the current one. -/
structure Stream where
  key : Vector UInt32 8
  counter : UInt64
  words : Array UInt64
  position : Nat

namespace Stream

/-- One word of the key, and the seed's state after it. -/
def keyWord (seed : UInt64) : UInt32 × UInt64 :=
  let state := seed * 6364136223846793005 + 11634580027462260723
  let mixed := (((state >>> 18) ^^^ state) >>> 27).toUInt32
  let turn := (state >>> 59).toUInt32
  ((mixed >>> turn) ||| (mixed <<< ((32 - turn) % 32)), state)

def keyWords : Nat → UInt64 → List UInt32
  | 0, _ => []
  | n + 1, seed =>
    let (word, seed) := keyWord seed
    word :: keyWords n seed

def keyOfSeed (seed : UInt64) : Vector UInt32 8 :=
  Vector.ofFn fun i : Fin 8 => (keyWords 8 seed).getD i.val 0

/-- The stream of a seed, from its first block. -/
def ofSeed (seed : UInt64) : Stream :=
  { key := keyOfSeed seed, counter := 0, words := #[], position := 0 }

/-- The next word, and the stream after it. -/
def next (s : Stream) : UInt64 × Stream :=
  match s.words[s.position]? with
  | some word => (word, { s with position := s.position + 1 })
  | none =>
    let words := (block s.key s.counter).words
    (words.getD 0 0, { s with counter := s.counter + 1, words, position := 1 })

end Stream

end Espalier.ChaCha
