import KeyTransparency.Octets

/-!
# The SHA-2 construction

The SHA-2 digests share one construction and differ in the width of a word, the rotations, the
number of rounds and the constants.  The construction is written once here, over the data that
varies.  The main statement is that a digest is eight words long.
-/

namespace KeyTransparency.Digest

/-- Consecutive pieces of a list, `count` of them, each `size` elements long. -/
def chunks {α : Type} (size : Nat) : (count : Nat) → List α → List (List α)
  | 0, _ => []
  | count + 1, xs => xs.take size :: chunks size count (xs.drop size)

/-- The eight words that a digest carries from one block to the next. -/
structure ChainValue (Word : Type) where
  a : Word
  b : Word
  c : Word
  d : Word
  e : Word
  f : Word
  g : Word
  h : Word

namespace ChainValue

/-- The words in order. -/
def toList {Word : Type} (v : ChainValue Word) : List Word :=
  [v.a, v.b, v.c, v.d, v.e, v.f, v.g, v.h]

/-- Word by word addition. -/
def add {Word : Type} [Add Word] (v w : ChainValue Word) : ChainValue Word :=
  ⟨v.a + w.a, v.b + w.b, v.c + w.c, v.d + w.d, v.e + w.e, v.f + w.f, v.g + w.g, v.h + w.h⟩

end ChainValue

/-- What distinguishes one SHA-2 digest from another. -/
structure Sha2 (Word : Type) where
  /-- The number of bytes in a word. -/
  wordBytes : Nat
  ofNat : Nat → Word
  toNat : Word → Nat
  /-- Mixes the first word of the chain value in every round. -/
  majorSigma : Word → Word
  /-- Mixes the fifth word of the chain value in every round. -/
  choiceSigma : Word → Word
  /-- Mixes the second of the last sixteen words into the next message word. -/
  earlySigma : Word → Word
  /-- Mixes the fifteenth of the last sixteen words into the next message word. -/
  lateSigma : Word → Word
  /-- The chain value before the first block. -/
  initial : ChainValue Word
  /-- One constant for each round. -/
  constants : List Word

namespace Sha2

variable {Word : Type}

/-- The number of bytes in a block of sixteen words. -/
def blockBytes (digest : Sha2 Word) : Nat := 16 * digest.wordBytes

/-- The message, a one bit, zero bits up to the last two words of a block, and in these two words
the length of the message in bits. -/
def pad (digest : Sha2 Word) (message : Bytes) : Bytes :=
  let field := 2 * digest.wordBytes
  let partBlock := (message.length + 1 + field) % digest.blockBytes
  let zeros := (digest.blockBytes - partBlock) % digest.blockBytes
  message ++ 0x80 :: (List.replicate zeros 0 ++ bigEndian field (8 * message.length))

/-- The sixteen words of a block. -/
def blockWords (digest : Sha2 Word) (block : Bytes) : List Word :=
  (chunks digest.wordBytes 16 block).map fun bytes => digest.ofNat (ofBigEndian bytes)

/-- The message word that follows the last sixteen, which are given oldest first. -/
@[specialize]
def nextWord [Add Word] (digest : Sha2 Word) (window : List Word) : Word :=
  let zero := digest.ofNat 0
  digest.lateSigma (window.getD 14 zero) + window.getD 9 zero
    + digest.earlySigma (window.getD 1 zero) + window.getD 0 zero

/-- One round, which takes in one message word and one constant. -/
@[specialize]
def round [Add Word] [AndOp Word] [XorOp Word] [Complement Word]
    (digest : Sha2 Word) (v : ChainValue Word) (constant word : Word) : ChainValue Word :=
  let choice := (v.e &&& v.f) ^^^ (~~~v.e &&& v.g)
  let majority := (v.a &&& v.b) ^^^ (v.a &&& v.c) ^^^ (v.b &&& v.c)
  let first := v.h + digest.choiceSigma v.e + choice + constant + word
  let second := digest.majorSigma v.a + majority
  ⟨first + second, v.a, v.b, v.c, v.d + first, v.e, v.f, v.g⟩

/-- All rounds, one for each constant; the window holds the next sixteen message words. -/
@[specialize]
def rounds [Add Word] [AndOp Word] [XorOp Word] [Complement Word] (digest : Sha2 Word) :
    (constants window : List Word) → ChainValue Word → ChainValue Word
  | [], _, v => v
  | constant :: constants, window, v =>
    let word := window.headD (digest.ofNat 0)
    rounds digest constants (window.tail ++ [digest.nextWord window]) (digest.round v constant word)

/-- The chain value after one more block. -/
@[specialize]
def compress [Add Word] [AndOp Word] [XorOp Word] [Complement Word]
    (digest : Sha2 Word) (v : ChainValue Word) (block : Bytes) : ChainValue Word :=
  v.add (digest.rounds digest.constants (digest.blockWords block) v)

/-- The chain value after the last block, written out word by word. -/
@[specialize]
def apply [Add Word] [AndOp Word] [XorOp Word] [Complement Word]
    (digest : Sha2 Word) (message : Bytes) : Bytes :=
  let padded := digest.pad message
  let blocks := chunks digest.blockBytes (padded.length / digest.blockBytes) padded
  (blocks.foldl digest.compress digest.initial).toList.flatMap fun word =>
    bigEndian digest.wordBytes (digest.toNat word)

theorem length_apply [Add Word] [AndOp Word] [XorOp Word] [Complement Word]
    (digest : Sha2 Word) (message : Bytes) :
    (digest.apply message).length = 8 * digest.wordBytes := by
  simp [apply, ChainValue.toList]
  omega

end Sha2

end KeyTransparency.Digest
