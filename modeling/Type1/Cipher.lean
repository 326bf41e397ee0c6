import Type1.Error

/-!
# The cipher of charstrings

The cipher is a stream cipher on bytes whose 16-bit key is renewed from every cipher byte.

* `decode`, `encode`: the streaming cipher and its inverse.
* `compact`: the same on a buffer that is overwritten by its own plain bytes, the first few of
  which are dropped. A plain byte never lands after the cipher byte that it comes from, so no cipher
  byte is lost before it is read.
* `decrypt`: removes the layer of the charstring; `decryptDouble`: also that of the encrypted part
  of the font file around it. Both give the number of plain bytes and the whole buffer.
-/

namespace Type1.Cipher

/-- The running key. -/
abbrev Key := UInt16

/-- The key with which the encrypted part of a font file starts. -/
def fontKey : Key := 55665

/-- The key with which a charstring starts. -/
def charstringKey : Key := 4330

/-- The key after a cipher byte. -/
def nextKey (key : Key) (cipher : UInt8) : Key :=
  (cipher.toUInt16 + key) * 52845 + 22719

/-- The byte that the key adds to a plain byte, and takes away from a cipher byte. -/
def mask (key : Key) : UInt8 :=
  (key >>> 8).toUInt8

/-- The plain byte of a cipher byte, and the key that follows. -/
def decodeByte (key : Key) (cipher : UInt8) : UInt8 × Key :=
  (cipher ^^^ mask key, nextKey key cipher)

/-- The plain byte under two layers, of which the first is the outer one. -/
def decodeByteTwice (keys : Key × Key) (cipher : UInt8) : UInt8 × (Key × Key) :=
  let (middle, outer) := decodeByte keys.1 cipher
  let (plain, inner) := decodeByte keys.2 middle
  (plain, (outer, inner))

/-- The plain bytes of a stream of cipher bytes. -/
def decode (key : Key) : List UInt8 → List UInt8
  | [] => []
  | cipher :: rest => (cipher ^^^ mask key) :: decode (nextKey key cipher) rest

/-- The cipher bytes of a stream of plain bytes. -/
def encode (key : Key) : List UInt8 → List UInt8
  | [] => []
  | plain :: rest =>
    let cipher := plain ^^^ mask key
    cipher :: encode (nextKey key cipher) rest

/-- Writes the plain byte of each cipher byte from position `i` on to `skip` positions before it,
and those that would land before the start nowhere. -/
def compact {σ : Type} {n : Nat} (step : σ → UInt8 → UInt8 × σ) (skip i : Nat) (state : σ)
    (buffer : Vector UInt8 n) : Vector UInt8 n :=
  if h : i < n then
    let (plain, next) := step state buffer[i]
    compact step skip (i + 1) next (if skip ≤ i then buffer.set (i - skip) plain else buffer)
  else
    buffer
termination_by n - i

/-- The number of leading plain bytes to drop, if it is one that the buffer has. -/
def skip? (lenIv : Int) (size : Nat) : Option Nat :=
  match lenIv with
  | .ofNat skip => if skip ≤ size then some skip else none
  | .negSucc _ => none

/-- Deciphers a buffer in place and drops the first `lenIv` plain bytes: the number of plain bytes,
or the reason for which the buffer was left alone, and the buffer afterwards. -/
def decryptWith {σ : Type} {n : Nat} (step : σ → UInt8 → UInt8 × σ) (state : σ) (lenIv : Int)
    (buffer : Vector UInt8 n) : Except Error Nat × Vector UInt8 n :=
  match skip? lenIv n with
  | some skip => (.ok (n - skip), compact step skip 0 state buffer)
  | none => (.error .badLenIv, buffer)

/-- Deciphers a charstring in place. -/
def decrypt {n : Nat} (lenIv : Int) (buffer : Vector UInt8 n) :
    Except Error Nat × Vector UInt8 n :=
  decryptWith decodeByte charstringKey lenIv buffer

/-- Deciphers, in place and in one pass, a charstring that still has the layer of the font file
around its own. -/
def decryptDouble {n : Nat} (lenIv : Int) (buffer : Vector UInt8 n) :
    Except Error Nat × Vector UInt8 n :=
  decryptWith decodeByteTwice (fontKey, charstringKey) lenIv buffer

end Type1.Cipher
