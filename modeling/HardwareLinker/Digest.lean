/-!
The 128-bit content digest that guards a stored payload: XXH3 with seed zero, kept as two words.
All arithmetic is modulo `2 ^ 64`; the input is read little-endian.
-/

namespace HardwareLinker

/-- A digest; its bytes are those of `low` followed by those of `high`, each little-endian. -/
structure Digest where
  low : UInt64
  high : UInt64
deriving DecidableEq, Repr

namespace Digest

def secretHex : String :=
  "b8fe6c3923a44bbe7c01812cf721ad1cded46de9839097db7240a4a4b7b3671f" ++
  "cb79e64eccc0e578825ad07dccff7221b8084674f743248ee03590e6813a264c" ++
  "3c2852bb91c300cb88d0658b1b532ea371644897a20df94e3819ef46a9deacd8" ++
  "a8fa763fe39c343ff9dcbbc7c70b4f1d8a51e04bcdb45931c89f7ec9d9787364" ++
  "eac5ac8334d3ebc3c581a0fffa1363eb170ddd51b7f0da49d316552629d4689e" ++
  "2b16be587d47a1fc8ff8b8d17ad031ce45cb3a8f95160428afd7fbcabb4b407e"

def hexValue (c : Char) : UInt8 :=
  if c.isDigit then (c.toNat - '0'.toNat).toUInt8 else (c.toNat - 'a'.toNat + 10).toUInt8

def bytesOfHex : List Char → List UInt8
  | a :: b :: rest => (hexValue a <<< 4 ||| hexValue b) :: bytesOfHex rest
  | _ => []

def secret : Array UInt8 := (bytesOfHex secretHex.toList).toArray

def word32 (bytes : Array UInt8) (i : Nat) : UInt64 :=
  (bytes.getD i 0).toUInt64 ||| (bytes.getD (i + 1) 0).toUInt64 <<< 8
    ||| (bytes.getD (i + 2) 0).toUInt64 <<< 16 ||| (bytes.getD (i + 3) 0).toUInt64 <<< 24

def word64 (bytes : Array UInt8) (i : Nat) : UInt64 :=
  word32 bytes i ||| word32 bytes (i + 4) <<< 32

def secretWord (i : Nat) : UInt64 := word64 secret i

def prime32A : UInt64 := 0x9E3779B1
def prime32B : UInt64 := 0x85EBCA77
def prime32C : UInt64 := 0xC2B2AE3D
def prime64A : UInt64 := 0x9E3779B185EBCA87
def prime64B : UInt64 := 0xC2B2AE3D27D4EB4F
def prime64C : UInt64 := 0x165667B19E3779F9
def prime64D : UInt64 := 0x85EBCA77C2B2AE63
def prime64E : UInt64 := 0x27D4EB2F165667C5
def mixPrimeA : UInt64 := 0x165667919E3779F9
def mixPrimeB : UInt64 := 0x9FB21C651E98DF25

/-- The high and the low word of a product. -/
def product (a b : UInt64) : UInt64 × UInt64 :=
  let p := a.toNat * b.toNat
  ((p / UInt64.size).toUInt64, p.toUInt64)

def fold (a b : UInt64) : UInt64 :=
  let (high, low) := product a b
  low ^^^ high

def avalanche (h : UInt64) : UInt64 :=
  let h := (h ^^^ (h >>> 37)) * mixPrimeA
  h ^^^ (h >>> 32)

def avalancheShort (h : UInt64) : UInt64 :=
  let h := (h ^^^ (h >>> 33)) * prime64B
  let h := (h ^^^ (h >>> 29)) * prime64C
  h ^^^ (h >>> 32)

def swap32 (x : UInt64) : UInt64 :=
  (x &&& 0xFF) <<< 24 ||| ((x >>> 8) &&& 0xFF) <<< 16 ||| ((x >>> 16) &&& 0xFF) <<< 8
    ||| ((x >>> 24) &&& 0xFF)

def swap64 (x : UInt64) : UInt64 := swap32 (x &&& 0xFFFFFFFF) <<< 32 ||| swap32 (x >>> 32)

def rotate32 (x : UInt64) (n : UInt64) : UInt64 :=
  ((x <<< n) ||| (x >>> (32 - n))) &&& 0xFFFFFFFF

def ofEmpty : Digest :=
  ⟨avalancheShort (secretWord 64 ^^^ secretWord 72),
    avalancheShort (secretWord 80 ^^^ secretWord 88)⟩

def ofUpTo3 (d : Array UInt8) (n : Nat) : Digest :=
  let byte (i : Nat) := (d.getD i 0).toUInt64
  let low := byte 0 <<< 16 ||| byte (n / 2) <<< 24 ||| byte (n - 1) ||| n.toUInt64 <<< 8
  let high := rotate32 (swap32 low) 13
  ⟨avalancheShort (low ^^^ (word32 secret 0 ^^^ word32 secret 4)),
    avalancheShort (high ^^^ (word32 secret 8 ^^^ word32 secret 12))⟩

def ofUpTo8 (d : Array UInt8) (n : Nat) : Digest :=
  let key := (word32 d 0 + word32 d (n - 4) <<< 32) ^^^ (secretWord 16 ^^^ secretWord 24)
  let (high, low) := product key (prime64A + n.toUInt64 <<< 2)
  let high := high + low <<< 1
  let low := low ^^^ (high >>> 3)
  let low := (low ^^^ (low >>> 35)) * mixPrimeB
  ⟨low ^^^ (low >>> 28), avalanche high⟩

def ofUpTo16 (d : Array UInt8) (n : Nat) : Digest :=
  let flipLow := secretWord 32 ^^^ secretWord 40
  let flipHigh := secretWord 48 ^^^ secretWord 56
  let first := word64 d 0
  let last := word64 d (n - 8)
  let (high, low) := product (first ^^^ last ^^^ flipLow) prime64A
  let low := low + (n - 1).toUInt64 <<< 54
  let last := last ^^^ flipHigh
  let high := high + last + (last &&& 0xFFFFFFFF) * (prime32B - 1)
  let low := low ^^^ swap64 high
  let (carry, low) := product low prime64B
  ⟨avalanche low, avalanche (carry + high * prime64B)⟩

def mix16 (d : Array UInt8) (i s : Nat) : UInt64 :=
  fold (word64 d i ^^^ secretWord s) (word64 d (i + 8) ^^^ secretWord (s + 8))

/-- One round over two stretches of sixteen bytes. -/
def mix32 (d : Array UInt8) (acc : Digest) (i j s : Nat) : Digest :=
  let low := (acc.low + mix16 d i s) ^^^ (word64 d j + word64 d (j + 8))
  let high := (acc.high + mix16 d j (s + 16)) ^^^ (word64 d i + word64 d (i + 8))
  ⟨low, high⟩

def finish (n : Nat) (acc : Digest) : Digest :=
  let sum := acc.low + acc.high
  let mixed := acc.low * prime64A + acc.high * prime64D + n.toUInt64 * prime64B
  ⟨avalanche sum, 0 - avalanche mixed⟩

def ofUpTo128 (d : Array UInt8) (n : Nat) : Digest :=
  let rounds := (List.range ((n - 1) / 32 + 1)).reverse
  finish n (rounds.foldl (fun acc i => mix32 d acc (16 * i) (n - 16 * (i + 1)) (32 * i))
    ⟨n.toUInt64 * prime64A, 0⟩)

def ofUpTo240 (d : Array UInt8) (n : Nat) : Digest :=
  let opening := (List.range 4).foldl (fun acc i => mix32 d acc (32 * i) (32 * i + 16) (32 * i))
    ⟨n.toUInt64 * prime64A, 0⟩
  let rest := (List.range (n / 32 - 4)).foldl
    (fun acc i => mix32 d acc (32 * (i + 4)) (32 * (i + 4) + 16) (3 + 32 * i))
    ⟨avalanche opening.low, avalanche opening.high⟩
  finish n (mix32 d rest (n - 16) (n - 32) 103)

/-- Adds one stripe of 64 bytes to the eight lanes. -/
def accumulate (d : Array UInt8) (lanes : Array UInt64) (i s : Nat) : Array UInt64 :=
  (List.range 8).foldl (fun lanes k =>
    let v := word64 d (i + 8 * k)
    let key := v ^^^ secretWord (s + 8 * k)
    let square := (key &&& (0xFFFFFFFF : UInt64)) * (key >>> 32)
    (lanes.modify (k ^^^ 1) (· + v)).modify k (· + square)) lanes

def scramble (lanes : Array UInt64) : Array UInt64 :=
  lanes.mapIdx fun k (a : UInt64) => (a ^^^ (a >>> 47) ^^^ secretWord (128 + 8 * k)) * prime32A

def mergeLanes (lanes : Array UInt64) (s : Nat) (start : UInt64) : UInt64 :=
  avalanche ((List.range 4).foldl (fun r k =>
    r + fold (lanes.getD (2 * k) 0 ^^^ secretWord (s + 16 * k))
      (lanes.getD (2 * k + 1) 0 ^^^ secretWord (s + 16 * k + 8))) start)

def ofLong (d : Array UInt8) (n : Nat) : Digest :=
  let blocks := (n - 1) / 1024
  let start : Array UInt64 :=
    #[prime32C, prime64A, prime64B, prime64C, prime64D, prime32B, prime64E, prime32A]
  let stripes (block count : Nat) (lanes : Array UInt64) :=
    (List.range count).foldl (fun lanes t =>
      accumulate d lanes (1024 * block + 64 * t) (8 * t)) lanes
  let lanes := (List.range blocks).foldl (fun lanes b => scramble (stripes b 16 lanes)) start
  let lanes := stripes blocks ((n - 1 - 1024 * blocks) / 64) lanes
  let lanes := accumulate d lanes (n - 64) 121
  ⟨mergeLanes lanes 11 (n.toUInt64 * prime64A), mergeLanes lanes 117 (~~~(n.toUInt64 * prime64B))⟩

def ofBytes (d : Array UInt8) : Digest :=
  let n := d.size
  if n = 0 then ofEmpty
  else if n ≤ 3 then ofUpTo3 d n
  else if n ≤ 8 then ofUpTo8 d n
  else if n ≤ 16 then ofUpTo16 d n
  else if n ≤ 128 then ofUpTo128 d n
  else if n ≤ 240 then ofUpTo240 d n
  else ofLong d n

def wordBytes (w : UInt64) : List UInt8 :=
  (List.range 8).map fun i => (w >>> (8 * i).toUInt64).toUInt8

def bytes (x : Digest) : List UInt8 := wordBytes x.low ++ wordBytes x.high

def hexDigit (n : Nat) : Char := Nat.digitChar n

def hexOf (bytes : List UInt8) : String :=
  String.ofList (bytes.flatMap fun b => [hexDigit (b.toNat / 16), hexDigit (b.toNat % 16)])

/-- Lowercase, two characters a byte. -/
def hex (x : Digest) : String := hexOf x.bytes

/-- The form used in logs: the first four bytes only. -/
def abbreviated (x : Digest) : String := "ContentHash(" ++ hexOf (x.bytes.take 4) ++ "..)"

end Digest
end HardwareLinker
