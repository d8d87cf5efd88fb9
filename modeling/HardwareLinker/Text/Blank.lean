/-!
Blank characters are those with the Unicode property White_Space. Texts are handled as lists of
characters, so that what is kept and what is dropped can be stated by list lemmas.
-/

namespace HardwareLinker.Text

/-- The ranges of the property White_Space, ascending, both ends included. -/
def blankRanges : List (Nat × Nat) :=
  [(0x09, 0x0D), (0x20, 0x20), (0x85, 0x85), (0xA0, 0xA0), (0x1680, 0x1680), (0x2000, 0x200A),
    (0x2028, 0x2029), (0x202F, 0x202F), (0x205F, 0x205F), (0x3000, 0x3000)]

def isBlank (c : Char) : Bool :=
  blankRanges.any fun (low, high) => low ≤ c.toNat && c.toNat ≤ high

def trimStart (cs : List Char) : List Char := cs.dropWhile isBlank

def trimEnd (cs : List Char) : List Char := (cs.reverse.dropWhile isBlank).reverse

def trim (cs : List Char) : List Char := trimEnd (trimStart cs)

/-- The maximal runs of characters that are not blank. -/
def words (cs : List Char) : List (List Char) :=
  match h : trimStart cs with
  | [] => []
  | c :: rest =>
    have : (rest.dropWhile (! isBlank ·)).length < cs.length := by
      have h1 := (List.dropWhile_sublist (l := cs) isBlank).length_le
      have h2 := (List.dropWhile_sublist (l := rest) (! isBlank ·)).length_le
      simp only [trimStart] at h
      rw [h] at h1
      simp only [List.length_cons] at h1
      omega
    (c :: rest.takeWhile (! isBlank ·)) :: words (rest.dropWhile (! isBlank ·))
termination_by cs.length

end HardwareLinker.Text
