/-!
# A 64-bit digest of bytes

SipHash with one round for each word and three at the end, under the zero key. Eight bytes make a
word, the lowest first; the last word holds what is left over and the number of bytes.
-/

set_option autoImplicit false
set_option relaxedAutoImplicit false

namespace Treewalk.Digest

/-- The four words that the digest works on. -/
structure State where
  v0 : UInt64
  v1 : UInt64
  v2 : UInt64
  v3 : UInt64
deriving DecidableEq, Repr, Inhabited

/-- The state before any input, under the zero key. -/
def State.start : State :=
  ⟨0x736f6d6570736575, 0x646f72616e646f6d, 0x6c7967656e657261, 0x7465646279746573⟩

/-- The bits of a word moved up, those that leave it coming in below. -/
def rotate (x : UInt64) (n : UInt64) : UInt64 :=
  (x <<< n) ||| (x >>> (64 - n))

/-- One round of mixing. -/
def State.round (s : State) : State :=
  let a0 := s.v0 + s.v1
  let a2 := s.v2 + s.v3
  let a1 := rotate s.v1 13 ^^^ a0
  let a3 := rotate s.v3 16 ^^^ a2
  let b0 := rotate a0 32
  let b2 := a2 + a1
  let c0 := b0 + a3
  ⟨c0, rotate a1 17 ^^^ b2, rotate b2 32, rotate a3 21 ^^^ c0⟩

/-- Takes in one word. -/
def State.absorb (s : State) (word : UInt64) : State :=
  let mixed := { s with v3 := s.v3 ^^^ word }.round
  { mixed with v0 := mixed.v0 ^^^ word }

/-- The digest of what was taken in. -/
def State.finish (s : State) : UInt64 :=
  let t := { s with v2 := s.v2 ^^^ 0xff }.round.round.round
  t.v0 ^^^ t.v1 ^^^ t.v2 ^^^ t.v3

/-- The word that bytes make up, the lowest first. -/
def word (bytes : List UInt8) : UInt64 :=
  bytes.foldr (fun b w ↦ (w <<< 8) ||| b.toUInt64) 0

/-- Takes in all full words of a byte list and then the last one, for `length` bytes in all. -/
def absorbAll (length : Nat) (s : State) : List UInt8 → State
  | b0 :: b1 :: b2 :: b3 :: b4 :: b5 :: b6 :: b7 :: rest =>
    absorbAll length (s.absorb (word [b0, b1, b2, b3, b4, b5, b6, b7])) rest
  | rest => s.absorb (word rest ||| (UInt64.ofNat length <<< 56))

/-- The digest of a byte list. -/
def ofBytes (bytes : List UInt8) : UInt64 :=
  (absorbAll bytes.length State.start bytes).finish

/-- The digest of a text: its UTF-8 bytes and one byte that no text contains. -/
def ofText (text : String) : UInt64 :=
  ofBytes (text.toUTF8.data.toList ++ [0xff])

/-- The digest of a word, the lowest byte first. -/
def ofWord (w : UInt64) : UInt64 :=
  ofBytes ((List.range 8).map fun i ↦ (w >>> (8 * UInt64.ofNat i)).toUInt8)

end Treewalk.Digest
