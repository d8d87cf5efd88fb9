/-!
Cutting a text at a separator or a mark, and into lines. A line ends at a line feed; one carriage
return before it belongs to the line end. The text after the last line feed is a line only if it is
not empty.
-/

namespace HardwareLinker.Text

/-- What precedes the first `sep` and what follows it. -/
def splitOnce (sep : Char) : List Char → Option (List Char × List Char)
  | [] => none
  | c :: rest =>
    if c == sep then some ([], rest)
    else (splitOnce sep rest).map fun (before, after) => (c :: before, after)

theorem length_of_splitOnce {sep : Char} {cs before after : List Char}
    (h : splitOnce sep cs = some (before, after)) : after.length < cs.length := by
  induction cs generalizing before with
  | nil => simp [splitOnce] at h
  | cons c rest ih =>
    simp only [splitOnce] at h
    split at h
    · simp only [Option.some.injEq, Prod.mk.injEq] at h
      simp [h.2]
    · obtain ⟨p, hp, he⟩ := Option.map_eq_some_iff.1 h
      simp only [Prod.mk.injEq] at he
      have := @ih p.1 (by rw [hp, ← he.2])
      simp only [List.length_cons]
      omega

/-- What follows the first occurrence of `mark`. -/
def after? (mark : List Char) : List Char → Option (List Char)
  | [] => if mark.isEmpty then some [] else none
  | c :: rest =>
    if mark.isPrefixOf (c :: rest) then some ((c :: rest).drop mark.length) else after? mark rest

/-- What follows `mark` at the very start. -/
def dropMark? (mark cs : List Char) : Option (List Char) :=
  if mark.isPrefixOf cs then some (cs.drop mark.length) else none

def dropReturn (line : List Char) : List Char :=
  match line.reverse with
  | '\r' :: rest => rest.reverse
  | _ => line

/-- A carriage return at the very end of a text is no line end and stays. -/
def lines (cs : List Char) : List (List Char) :=
  let chunks := cs.splitOn '\n'
  let terminated := chunks.dropLast.map dropReturn
  match chunks.getLast? with
  | none | some [] => terminated
  | some last => terminated ++ [last]

def linesOf (s : String) : List String := (lines s.toList).map String.ofList

end HardwareLinker.Text
