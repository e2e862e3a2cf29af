import Espalier.Number
import Espalier.Random.ChaCha

/-!
# Random words and shares

Everything random is drawn as 64-bit words from a source. `RandomSource` is all a search
knows of one, so statements about runs hold for every stream of words; `Source` collects the
streams that programs use. `unitShare` turns a word into a share of the unit interval.
-/

namespace Espalier

/-- A state from which an endless stream of words is drawn. -/
class RandomSource (ρ : Type) where
  /-- The next word, and the state after it. -/
  next : ρ → UInt64 × ρ

/-- The share of the unit interval a word stands for: its upper 53 bits over `2 ^ 53`, so it
is below one. -/
def unitShare {R : Type} [Arithmetic R] (word : UInt64) : R :=
  ((word >>> 11).toNat : R) / ((0x20000000000000 : Nat) : R)

def drawShare {R ρ : Type} [Arithmetic R] [RandomSource ρ] (source : ρ) : R × ρ :=
  let (word, source) := RandomSource.next source
  (unitShare word, source)

/-- One step of a counter whose scrambled values are the words drawn. -/
def splitMix (state : UInt64) : UInt64 × UInt64 :=
  let state := state + 0x9E3779B97F4A7C15
  let z := (state ^^^ (state >>> 30)) * 0xBF58476D1CE4E5B9
  let z := (z ^^^ (z >>> 27)) * 0x94D049BB133111EB
  (z ^^^ (z >>> 31), state)

/-- The sources programs draw from. -/
inductive Source where
  /-- Given words in turn, from the first again after the last; without any, always zero. -/
  | cycle (words : Array UInt64) (position : Nat)
  | split (state : UInt64)
  | chaCha (stream : ChaCha.Stream)

namespace Source

def ofSeed (seed : UInt64) : Source := .chaCha (.ofSeed seed)

/-- The next word, and the source after it. -/
def next : Source → UInt64 × Source
  | .cycle words position =>
    (words.getD position 0, .cycle words (if position + 1 < words.size then position + 1 else 0))
  | .split state =>
    let (word, state) := splitMix state
    (word, .split state)
  | .chaCha stream =>
    let (word, stream) := stream.next
    (word, .chaCha stream)

instance : RandomSource Source := ⟨next⟩

end Source

end Espalier
