import HardwareLinker.Proofs.Milp.Fields
import HardwareLinker.Proofs.Text.Split

/-!
A reader of the LP format that goes through the sections of a text, and what it makes of sums, of
lines and of sections. Only the sign of a zero can get lost.
-/

namespace HardwareLinker.Milp

namespace Lp

/-- What is read of a row. -/
structure Row (α : Type) where
  name : String
  terms : List (α × String)
  sense : Sense
  bound : α

/-- What is read of a variable that is not binary. -/
structure Bounds (α : Type) where
  name : String
  lower : α
  upper : Option α

structure File (α : Type) where
  costs : List (α × String)
  rows : List (Row α)
  bounds : List (Bounds α)
  binaries : List String

/-- The names of a file in the order in which they first appear. -/
def File.columns {α : Type} (f : File α) : List String :=
  (f.costs.map (·.2) ++ f.rows.flatMap (fun r => r.terms.map (·.2)) ++ f.bounds.map (·.name) ++
    f.binaries).eraseDups

def isIndented (line : List Char) : Bool := line.head?.any Text.isBlank

/-- The indented lines under a heading, and the lines behind them. -/
def under? (heading : String) : List (List Char) → Option (List (List Char) × List (List Char))
  | [] => none
  | line :: rest => if line = heading.toList then some (rest.span isIndented) else none

/-- A name before a colon and the fields behind it. -/
def labelled? (line : List Char) : Option (String × List String) := do
  let (label, rest) ← Text.splitOnce ':' line
  match fieldsOf label with
  | [name] => some (name, fieldsOf rest)
  | _ => none

def sense? (field : String) : Option Sense :=
  if field = "<=" then some .atMost
  else if field = ">=" then some .atLeast
  else if field = "=" then some .equal
  else none

variable {α : Type} [Scalar α]

def signed? (sign field : String) : Option α :=
  if sign = "+" then readValue? field
  else if sign = "-" then (readValue? field).map (- ·)
  else none

def terms? : List String → Option (List (α × String))
  | [] => some []
  | sign :: field :: name :: rest => do
    let value ← signed? sign field
    let terms ← terms? rest
    some ((value, name) :: terms)
  | _ => none

/-- A sum; the sign of its first term may be missing. -/
def sum? : List String → Option (List (α × String))
  | [] => some []
  | first :: rest =>
      terms? (if first = "+" ∨ first = "-" then first :: rest else "+" :: first :: rest)

def costs? : List (List Char) → Option (List (α × String))
  | [line] => (labelled? line).bind fun (_, fields) => sum? fields
  | _ => none

def row? (line : List Char) : Option (Row α) := do
  let (name, fields) ← labelled? line
  match fields.reverse with
  | bound :: sense :: terms =>
    some ⟨name, ← sum? terms.reverse, ← sense? sense, ← readValue? bound⟩
  | _ => none

/-- An infinite upper bound is none. -/
def bounds? (line : List Char) : Option (Bounds α) :=
  match fieldsOf line with
  | [lower, "<=", name, "<=", upper] => do
    let greatest ← readValue? upper
    some ⟨name, ← readValue? lower, if Scalar.isFinite greatest then some greatest else none⟩
  | _ => none

def name? (line : List Char) : Option String :=
  match fieldsOf line with
  | [name] => some name
  | _ => none

/-- Lines that start with a backslash are comments; the section of the binaries may be missing. -/
def read? (text : String) : Option (File α) := do
  let lines := (Text.lines text.toList).filter fun line => line.head? != some '\\'
  let (costs, lines) ← under? "Minimize" lines
  let (rows, lines) ← under? "Subject To" lines
  let (bounds, lines) ← under? "Bounds" lines
  let (binaries, lines) := (under? "Binaries" lines).getD ([], lines)
  guard (lines = ["End".toList])
  some ⟨← costs? costs, ← rows.mapM row?, ← bounds.mapM bounds?, ← binaries.mapM name?⟩

/-! ### Terms -/

/-- A number as it is read back, from its magnitude and whether it is below zero. -/
def readBack (c : Binary64) : Binary64 := if c < 0 then -Scalar.abs c else Scalar.abs c

theorem sameNumber_readBack {c : Binary64} (number : c.isNaN = false) :
    SameNumber (readBack c) c := by
  rw [readBack]
  split
  · next negative => exact .inl (Binary64.neg_abs_of_neg negative)
  · next above =>
    exact (Binary64.abs_of_not_neg number above).imp_right fun zero =>
      ⟨(Binary64.isZero_abs c).trans zero, zero⟩

/-- The fields of a term; of a first term that is not negative the sign is missing. -/
def termFields (first : Bool) (c : Binary64) (name : String) : List String :=
  (if first && 0 ≤ c then [] else [if c < 0 then "-" else "+"]) ++
    [Scalar.text (Scalar.abs c), name]

def sumFields : List (Binary64 × String) → List String
  | [] => []
  | (c, name) :: rest =>
      termFields true c name ++ rest.flatMap fun (c, name) => termFields false c name

theorem termText_eq (first : Bool) (c : Binary64) (name : String) :
    (termText first c name).toList = Text.spread ((termFields first c name).map String.toList) := by
  rw [termText, termFields]
  split
  · simp [Text.spread]
  · split <;> simp [Text.spread]

/-- Behind the first term every term has a sign. -/
theorem join_termText (terms : List (Binary64 × String)) {n : Nat} (later : 0 < n) :
    (String.join ((terms.zipIdx n).map fun ((c, name), i) => termText (i == 0) c name)).toList =
      Text.spread ((terms.flatMap fun (c, name) => termFields false c name).map String.toList) := by
  induction terms generalizing n with
  | nil => rfl
  | cons t terms ih =>
      have behind : (n == 0) = false := beq_eq_false_iff_ne.mpr (Nat.ne_of_gt later)
      have head := termText_eq (n == 0) t.1 t.2
      rw [behind] at head
      rw [List.zipIdx_cons, List.map_cons, String.join_cons, String.toList_append,
        ih (Nat.succ_pos n), List.flatMap_cons, List.map_append, Text.spread_append]
      simp only [behind]
      exact congrArg (· ++ _) head

theorem termsText_eq (terms : List (Binary64 × String)) :
    (termsText terms).toList = Text.spread ((sumFields terms).map String.toList) := by
  cases terms with
  | nil => rfl
  | cons t terms =>
      rw [termsText, List.zipIdx_cons, List.map_cons, String.join_cons, String.toList_append,
        join_termText terms Nat.one_pos, sumFields, List.map_append, Text.spread_append]
      exact congrArg (· ++ _) (termText_eq true t.1 t.2)

theorem signed?_text {c : Binary64} (number : c.isNaN = false) :
    signed? (if c < 0 then "-" else "+") (Scalar.text (Scalar.abs c)) = some (readBack c) := by
  have value : readValue? (Scalar.text (Scalar.abs c)) = some (Scalar.abs c) :=
    readValue?_text ((Binary64.isNaN_abs c).trans number)
  rw [signed?, readBack, value]
  split <;> rfl

theorem terms?_flatMap {terms : List (Binary64 × String)}
    (numbers : ∀ t ∈ terms, t.1.isNaN = false) :
    terms? (terms.flatMap fun (c, name) => termFields false c name) =
      some (terms.map fun (c, name) => (readBack c, name)) := by
  induction terms with
  | nil => rfl
  | cons t terms ih =>
      obtain ⟨here, later⟩ := List.forall_mem_cons.mp numbers
      obtain ⟨c, name⟩ := t
      change terms? ((if c < 0 then "-" else "+") :: Scalar.text (Scalar.abs c) :: name ::
        terms.flatMap fun (c, name) => termFields false c name) = _
      rw [terms?, signed?_text here, ih later]
      rfl

theorem sum?_sumFields {terms : List (Binary64 × String)}
    (numbers : ∀ t ∈ terms, t.1.isNaN = false) :
    sum? (sumFields terms) = some (terms.map fun (c, name) => (readBack c, name)) := by
  cases terms with
  | nil => rfl
  | cons t terms =>
      obtain ⟨here, -⟩ := List.forall_mem_cons.mp numbers
      have all := terms?_flatMap numbers
      obtain ⟨c, name⟩ := t
      -- With the sign that a first term may leave out, it is a term like the others.
      by_cases nonneg : 0 ≤ c
      · have above := Binary64.not_neg_of_nonneg nonneg
        have unsigned : sumFields ((c, name) :: terms) = Scalar.text (Scalar.abs c) :: name ::
            terms.flatMap fun (c, name) => termFields false c name := by
          simp [sumFields, termFields, nonneg]
        have number : (Scalar.abs c).isNaN = false := (Binary64.isNaN_abs c).trans here
        rw [unsigned, sum?, if_neg (not_or.mpr ⟨text_ne number "+" rfl, text_ne number "-" rfl⟩),
          ← all]
        simp [termFields, above]
      · have signed : sumFields ((c, name) :: terms) =
            (if c < 0 then "-" else "+") :: Scalar.text (Scalar.abs c) :: name ::
              terms.flatMap fun (c, name) => termFields false c name := by
          simp [sumFields, termFields, nonneg]
        have sign : (if c < 0 then "-" else "+") = "+" ∨ (if c < 0 then "-" else "+") = "-" := by
          split
          · exact .inr rfl
          · exact .inl rfl
        rw [signed, sum?, if_pos sign, ← all]
        simp [termFields]

theorem solid_termFields {c : Binary64} {name : String} (first : Bool) (number : c.isNaN = false)
    (solid : Text.Solid name.toList) :
    ∀ field ∈ termFields first c name, Text.Solid field.toList := by
  have magnitude : (Scalar.abs c).isNaN = false := (Binary64.isNaN_abs c).trans number
  intro field at_field
  cases List.mem_append.mp at_field with
  | inl sign =>
      have mark : field = "-" ∨ field = "+" := by
        split at sign
        · exact absurd sign List.not_mem_nil
        · have := List.mem_singleton.mp sign
          split at this
          · exact .inl this
          · exact .inr this
      cases mark with
      | inl minus => rw [minus]; decide +kernel
      | inr plus => rw [plus]; decide +kernel
  | inr rest =>
      cases List.mem_cons.mp rest with
      | inl value => rw [value]; exact Decimal.text_solid magnitude
      | inr last => rw [List.mem_singleton.mp last]; exact solid

theorem solid_sumFields {terms : List (Binary64 × String)}
    (fit : ∀ t ∈ terms, t.1.isNaN = false ∧ Text.Solid t.2.toList) :
    ∀ field ∈ sumFields terms, Text.Solid field.toList := by
  cases terms with
  | nil => exact fun field at_field => absurd at_field List.not_mem_nil
  | cons t terms =>
      obtain ⟨here, later⟩ := List.forall_mem_cons.mp fit
      intro field at_field
      cases List.mem_append.mp at_field with
      | inl first => exact solid_termFields true here.1 here.2 field first
      | inr rest =>
          obtain ⟨u, at_u, at_field⟩ := List.mem_flatMap.mp rest
          exact solid_termFields false (later u at_u).1 (later u at_u).2 field at_field

/-! ### Lines -/

/-- A name without blanks and colons. -/
structure Plain (name : String) : Prop where
  solid : Text.Solid name.toList
  uncut : ':' ∉ name.toList

/-- Fields, each behind a space. -/
def spaced (fields : List String) : List Char := Text.spread (fields.map String.toList)

def labelled (name : String) (fields : List String) : List Char :=
  spaced [name] ++ ':' :: spaced fields

theorem fieldsOf_spaced {fields : List String} (solid : ∀ field ∈ fields, Text.Solid field.toList) :
    fieldsOf (spaced fields) = fields := fieldsOf_eq (holds_spread fields solid).spaced

theorem labelled?_labelled {name : String} {fields : List String} (plain : Plain name)
    (solid : ∀ field ∈ fields, Text.Solid field.toList) :
    labelled? (labelled name fields) = some (name, fields) := by
  have label : ':' ∉ spaced [name] := by
    simp [spaced, Text.spread, plain.uncut]
  have read : fieldsOf (spaced [name]) = [name] :=
    fieldsOf_spaced (List.forall_mem_singleton.mpr plain.solid)
  rw [labelled?, labelled, Text.splitOnce_eq_some.mpr ⟨rfl, label⟩]
  simp only [Option.bind_eq_bind, Option.bind_some, read, fieldsOf_spaced solid]

/-- A line of a section: it starts with a space and holds no other blanks than spaces. -/
structure Inner (line : List Char) : Prop where
  one : Text.OneLine line
  start : line.head? = some ' '

theorem inner_spaced {field : String} {fields : List String}
    (solid : ∀ f ∈ field :: fields, Text.Solid f.toList) : Inner (spaced (field :: fields)) where
  one := (holds_spread _ solid).one
  start := rfl

theorem inner_labelled {name : String} {fields : List String} (plain : Plain name)
    (solid : ∀ field ∈ fields, Text.Solid field.toList) : Inner (labelled name fields) where
  one := by
    have words : ∀ w ∈ [name.toList] ++ fields.map String.toList, Text.Solid w := by
      intro w at_w
      cases List.mem_append.mp at_w with
      | inl label => rw [List.mem_singleton.mp label]; exact plain.solid
      | inr field => obtain ⟨f, at_f, rfl⟩ := List.mem_map.mp field; exact solid f at_f
    refine Text.oneLine_of_spaces fun c at_c => ?_
    cases List.mem_append.mp at_c with
    | inl label =>
        refine Text.spaces_of_mem_spread words ?_
        rw [Text.spread_append]
        exact List.mem_append_left _ label
    | inr rest =>
        cases List.mem_cons.mp rest with
        | inl colon => rw [colon]; exact .inr rfl
        | inr field =>
            refine Text.spaces_of_mem_spread words ?_
            rw [Text.spread_append]
            exact List.mem_append_right _ field
  start := rfl

theorem Inner.isIndented {line : List Char} (inner : Inner line) : Lp.isIndented line = true := by
  rw [Lp.isIndented, inner.start]
  rfl

/-- One line that is no comment. -/
def Kept (line : List Char) : Prop := Text.OneLine line ∧ (line.head? != some '\\') = true

instance (line : List Char) : Decidable (Kept line) :=
  inferInstanceAs (Decidable (Text.OneLine line ∧ (line.head? != some '\\') = true))

theorem Inner.kept {line : List Char} (inner : Inner line) : Kept line :=
  ⟨inner.one, by rw [inner.start]; rfl⟩

/-! ### Reading the sections -/

theorem under?_eq (heading : String) {body : List (List Char)} (inner : ∀ line ∈ body, Inner line)
    (rest : List (List Char)) (stop : ∀ line ∈ rest.head?, isIndented line = false) :
    under? heading (heading.toList :: (body ++ rest)) = some (body, rest) := by
  have indented : ∀ line ∈ body, isIndented line = true := fun line at_line =>
    (inner line at_line).isIndented
  have none : rest.takeWhile isIndented = [] ∧ rest.dropWhile isIndented = rest := by
    cases rest with
    | nil => exact ⟨rfl, rfl⟩
    | cons line rest => simp [stop line rfl]
  rw [under?, if_pos rfl, List.span_eq_takeWhile_dropWhile, List.takeWhile_append_of_pos indented,
    List.dropWhile_append_of_pos indented, none.1, none.2, List.append_nil]

theorem eraseDups_of_nodup {l : List String} (distinct : l.Nodup) : l.eraseDups = l := by
  induction l with
  | nil => rfl
  | cons s l ih =>
      obtain ⟨fresh, distinct⟩ := List.nodup_cons.mp distinct
      have kept : l.filter (fun other => !other == s) = l :=
        List.filter_eq_self.mpr fun other at_other => by
          simpa using fun same : other = s => fresh (same ▸ at_other)
      rw [List.eraseDups_cons, kept, ih distinct]

/-- What has appeared before appears no more. -/
theorem eraseDups_append {l l' : List String} (distinct : l.Nodup) (seen : ∀ s ∈ l', s ∈ l) :
    (l ++ l').eraseDups = l := by
  have none : l'.removeAll l = [] :=
    List.filter_eq_nil_iff.mpr fun s at_s => by simpa using seen s at_s
  rw [List.eraseDups_append, none, eraseDups_of_nodup distinct]
  exact List.append_nil l

theorem mapM_map {β γ δ : Type} {f : γ → Option δ} {g : β → γ} {h : β → δ} {l : List β}
    (each : ∀ b ∈ l, f (g b) = some (h b)) : (l.map g).mapM f = some (l.map h) := by
  induction l with
  | nil => rfl
  | cons b l ih =>
      obtain ⟨here, later⟩ := List.forall_mem_cons.mp each
      rw [List.map_cons, List.mapM_cons, here, ih later]
      rfl

theorem sense?_text (sense : Sense) : sense? sense.text = some sense := by
  cases sense <;> rfl

end Lp
end HardwareLinker.Milp
