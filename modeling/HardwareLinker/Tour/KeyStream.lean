import HardwareLinker.Binary64

/-!
The stream of random words that tours draw from: ChaCha with twelve rounds, its key expanded from
one seed word. All draws take two words, the low half first.
-/

namespace HardwareLinker.Tour

def rotateLeft (x n : UInt32) : UInt32 := (x <<< n) ||| (x >>> (32 - n))

/-- The key words of a seed, by steps of a congruential generator. -/
def keyOfSeed (seed : UInt64) : List UInt32 :=
  let rec steps : Nat → UInt64 → List UInt32
    | 0, _ => []
    | n + 1, s =>
      let s := s * 6364136223846793005 + 11634580027462260723
      let x := (((s >>> 18) ^^^ s) >>> 27).toUInt32
      let turn := (s >>> 59).toUInt32
      ((x >>> turn) ||| (x <<< ((32 - turn) &&& 31))) :: steps n s
  steps 8 seed

abbrev Words := Array UInt32

def word (w : Words) (i : Nat) : UInt32 := w.getD i 0

def quarterRound (w : Words) (a b c d : Nat) : Words :=
  let add (w : Words) (x y : Nat) := w.setIfInBounds x (word w x + word w y)
  let mix (w : Words) (x y : Nat) (n : UInt32) :=
    w.setIfInBounds x (rotateLeft (word w x ^^^ word w y) n)
  let w := mix (add w a b) d a 16
  let w := mix (add w c d) b c 12
  let w := mix (add w a b) d a 8
  mix (add w c d) b c 7

def doubleRound (w : Words) : Words :=
  let w := quarterRound w 0 4 8 12
  let w := quarterRound w 1 5 9 13
  let w := quarterRound w 2 6 10 14
  let w := quarterRound w 3 7 11 15
  let w := quarterRound w 0 5 10 15
  let w := quarterRound w 1 6 11 12
  let w := quarterRound w 2 7 8 13
  quarterRound w 3 4 9 14

/-- The words of one block. -/
def block (key : List UInt32) (counter : UInt64) : Words :=
  let constants : List UInt32 := [0x61707865, 0x3320646e, 0x79622d32, 0x6b206574]
  let position : List UInt32 := [counter.toUInt32, (counter >>> 32).toUInt32, 0, 0]
  let start : Words := (constants ++ key ++ position).toArray
  let mixed := (List.range 6).foldl (fun w _ => doubleRound w) start
  mixed.mapIdx fun i x => x + word start i

/-- A position in the stream of a key, with the block that it lies in. -/
structure KeyStream where
  key : List UInt32
  counter : UInt64
  current : Words
  used : Nat

namespace KeyStream

def ofSeed (seed : UInt64) : KeyStream :=
  let key := keyOfSeed seed
  ⟨key, 0, block key 0, 0⟩

def next (s : KeyStream) : UInt64 × KeyStream :=
  let s := if s.used < 16 then s
    else ⟨s.key, s.counter + 1, block s.key (s.counter + 1), 0⟩
  let low := (word s.current s.used).toUInt64
  let high := (word s.current (s.used + 1)).toUInt64
  (low ||| high <<< 32, { s with used := s.used + 2 })

/-- Draws until one falls into the zone where all numbers below `n` are equally likely; the fuel is
far beyond what chance allows. -/
def belowWithin (n zone : Nat) : Nat → KeyStream → Nat × KeyStream
  | 0, s => (0, s)
  | fuel + 1, s =>
    let (v, s) := s.next
    let p := v.toNat * n
    if p % UInt64.size ≤ zone then (p / UInt64.size % n, s) else belowWithin n zone fuel s

/-- A number below `n`. -/
def below (n : Nat) (s : KeyStream) : Nat × KeyStream :=
  belowWithin n (n * Nat.pow 2 (63 - n.log2) - 1) 10000 s

/-- A number from zero up to one, in steps of `2 ^ -53`. -/
def unit (s : KeyStream) : Binary64 × KeyStream :=
  let (v, s) := s.next
  (.ofFloat ((Float.ofNat (v >>> 11).toNat).scaleB (-53)), s)

end KeyStream
end HardwareLinker.Tour
