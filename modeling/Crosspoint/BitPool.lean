import Crosspoint.Lib.Machine
import Crosspoint.Lib.Traces
import Crosspoint.Lib.Words

/-! `BitPool`: a flat array of flags packed into 32-bit words.

An access through a null pointer, at an index not below the constructor's `nBits`, or at a word that
was not allocated is undefined in the source (`get` and `set` check nothing); here it gives `none`. -/

namespace Crosspoint

/-- `words` is the array behind `_words`, `none` for a null pointer. The class does not store `nBits`;
    it is kept here to say which indices callers may pass. -/
structure BitPool where
  words : Option (Array UInt32)
  nWords : UInt16
  nBits : UInt32
deriving DecidableEq, Repr

namespace BitPool

/-- Words required to hold `nBits` bits, computed in 32 bits and narrowed to 16. -/
def wordsFor (nBits : UInt32) : UInt16 :=
  if nBits = 0 then 0 else ((nBits + 31) / 32).toUInt16

/-- `BitPool(nBits)`: allocates and zeros the words; a null pointer when there are none. -/
def heap (nBits : UInt32) : BitPool where
  words := if wordsFor nBits > 0 then some (Array.replicate (wordsFor nBits).toNat 0) else none
  nWords := wordsFor nBits
  nBits := nBits

/-- `BitPool(words, nBits)`: uses the caller's array as it stands. -/
def wrap (words : Option (Array UInt32)) (nBits : UInt32) : BitPool where
  words := words
  nWords := wordsFor nBits
  nBits := nBits

def valid (p : BitPool) : Bool := p.words.isSome

/-- The word index `n >> 5` of bit `n`, when the access is defined. -/
def wordIndex (p : BitPool) (n : UInt32) : Option Nat :=
  if n < p.nBits ∧ (n >>> 5).toNat < p.nWords.toNat then some (n >>> 5).toNat else none

def get (p : BitPool) (n : UInt32) : Option Bool := do
  let words ← p.words
  let i ← p.wordIndex n
  let w ← words[i]?
  return Words.bit w n

def set (p : BitPool) (n : UInt32) (v : Bool) : Option BitPool := do
  let words ← p.words
  let i ← p.wordIndex n
  let w ← words[i]?
  return { p with words := some (words.setIfInBounds i (Words.withBit w n v)) }

/-- Zeros the first `_nWords` words, as `memset` does; writing past the array is undefined. -/
def clear (p : BitPool) : Option BitPool :=
  match p.words with
  | none => some p
  | some words =>
    if p.nWords.toNat ≤ words.size then
      some { p with words := some (words.mapIdx fun i w => if i < p.nWords.toNat then 0 else w) }
    else none

end BitPool

/-! ### The pool as a machine -/

/-- A call of a method of the pool. -/
inductive PoolOp
  | get (n : UInt32)
  | set (n : UInt32) (v : Bool)
  | clear
deriving DecidableEq, Repr

namespace PoolOp

/-- The index that the call is given. -/
def index : PoolOp → Option UInt32
  | .get n => some n
  | .set n _ => some n
  | .clear => none

/-- The call writes flag `n`. -/
def writes (n : UInt32) : PoolOp → Bool
  | .get _ => false
  | .set m _ => m == n
  | .clear => true

/-- The value that a call writes. -/
def value : PoolOp → Bool
  | .set _ v => v
  | _ => false

end PoolOp

namespace BitPool

/-- One call; the answer is what `get` returns. -/
def step (p : BitPool) : PoolOp → Option (BitPool × Option Bool)
  | .get n => (p.get n).map fun v => (p, some v)
  | .set n v => (p.set n v).map fun q => (q, none)
  | .clear => p.clear.map fun q => (q, none)

abbrev run : BitPool → List PoolOp → Option (BitPool × List (PoolOp × Option Bool)) := Machine.run step

/-- The last value written at `n` by a `set` or a `clear`, false if there is none. -/
def lastValue (n : UInt32) (ops : List PoolOp) : Bool := (Traces.lastWhere (PoolOp.writes n) ops).any PoolOp.value

/-- A call with the answer that the calls before it make right. -/
def Answered (pre : List (PoolOp × Option Bool)) (e : PoolOp × Option Bool) : Prop :=
  ∀ n, e.1 = .get n → e.2 = some (lastValue n (pre.map Prod.fst))

/-- What a heap pool of `nBits` flags is for: whatever the calls with indices below `nBits`, every word they
    touch is one of those allocated, and every read gives the last value written at its index. -/
def Faithful (nBits : UInt32) : Prop :=
  ∀ ops : List PoolOp, (∀ op ∈ ops, ∀ n, op.index = some n → n < nBits) →
    (∀ op ∈ ops, ∀ n, op.index = some n → (n >>> 5).toNat < (wordsFor nBits).toNat) ∧
      ∃ q log, (heap nBits).run ops = some (q, log) ∧ Traces.Preceded Answered log

end BitPool

end Crosspoint
