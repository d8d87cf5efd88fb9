import HardwareLinker.Binary64
import HardwareLinker.NameMap

/-!
Codecs for byte strings: what is written, and how much of a byte string is read back as what. A
codec says where its value ends, so codecs can stand behind each other. Numbers are little-endian.
-/

namespace HardwareLinker

structure Codec (β : Type) where
  write : β → List UInt8
  read : List UInt8 → Option (β × List UInt8)

namespace Codec

variable {β γ : Type}

/-- The lowest bytes of a number. -/
def littleEndian : Nat → Nat → List UInt8
  | 0, _ => []
  | width + 1, n => UInt8.ofNat n :: littleEndian width (n / 256)

def ofLittleEndian (bytes : List UInt8) : Nat := bytes.foldr (fun b n => b.toNat + 256 * n) 0

/-- Exactly so many bytes as they are. -/
def raw (width : Nat) : Codec (List UInt8) where
  write bytes := bytes
  read bytes := if width ≤ bytes.length then some (bytes.splitAt width) else none

/-- Writes a value as another that it stands for; not every such other stands for a value. -/
def refine (c : Codec β) (ofOther? : β → Option γ) (toOther : γ → β) : Codec γ where
  write x := c.write (toOther x)
  read bytes := do
    let (y, rest) ← c.read bytes
    return (← ofOther? y, rest)

def iso (c : Codec β) (ofOther : β → γ) (toOther : γ → β) : Codec γ :=
  c.refine (some ∘ ofOther) toOther

/-- A number of fixed width. -/
def word (width : Nat) : Codec Nat where
  write n := littleEndian width n
  read bytes := do
    let (digits, rest) ← (raw width).read bytes
    return (ofLittleEndian digits, rest)

/-- Numbers below this stand in a single byte. -/
def singleLimit : Nat := 251

/-- A number in one byte if it is small, else in the first of the given forms that holds it: a mark
and so many bytes. On reading every form is good for every number. -/
def varying (forms : List (UInt8 × Nat)) : Codec Nat where
  write n :=
    if n < singleLimit then [UInt8.ofNat n]
    else match forms.find? fun form => n < Nat.pow 256 form.2 with
      | some (mark, width) => mark :: littleEndian width n
      | none => []
  read
    | [] => none
    | b :: rest =>
      if b.toNat < singleLimit then some (b.toNat, rest)
      else match forms.lookup b with
        | some width => (word width).read rest
        | none => none

/-- A number below `2 ^ 32`. -/
def short : Codec Nat := varying [(251, 2), (252, 4)]

/-- A number below `2 ^ 64`. -/
def long : Codec Nat := varying [(251, 2), (252, 4), (253, 8)]

/-- The eight bytes of a binary64 number. -/
def float : Codec Binary64 := (word 8).iso (fun n => ⟨n.toUInt64⟩) (fun x => x.bits.toNat)

def pair (c : Codec β) (d : Codec γ) : Codec (β × γ) where
  write p := c.write p.1 ++ d.write p.2
  read bytes := do
    let (x, rest) ← c.read bytes
    let (y, rest) ← d.read rest
    return ((x, y), rest)

/-- So many values behind each other. -/
def readMany (c : Codec β) : Nat → List UInt8 → Option (List β × List UInt8)
  | 0, bytes => some ([], bytes)
  | n + 1, bytes => do
    let (x, rest) ← c.read bytes
    let (xs, rest) ← readMany c n rest
    return (x :: xs, rest)

/-- The number of the items and then the items. -/
def list (c : Codec β) : Codec (List β) where
  write xs := long.write xs.length ++ xs.flatMap c.write
  read bytes := do
    let (n, rest) ← long.read bytes
    readMany c n rest

/-- The number of bytes and then the bytes. -/
def bytes : Codec (List UInt8) where
  write bs := long.write bs.length ++ bs
  read bs := do
    let (n, rest) ← long.read bs
    (raw n).read rest

/-- A text by its UTF-8 bytes. -/
def text : Codec String :=
  bytes.refine (fun bs => String.fromUTF8? ⟨bs.toArray⟩) (fun s => s.toUTF8.toList)

/-- A byte that tells whether there is a value, and the value. -/
def option (c : Codec β) : Codec (Option β) where
  write
    | none => [0]
    | some x => 1 :: c.write x
  read
    | 0 :: rest => some (none, rest)
    | 1 :: rest => do
      let (x, rest) ← c.read rest
      return (some x, rest)
    | _ => none

/-- A map as its bindings; of a repeated name the last binding holds. -/
def map (c : Codec β) : Codec (NameMap β) :=
  (list (text.pair c)).iso NameMap.ofList NameMap.entries

end Codec
end HardwareLinker
