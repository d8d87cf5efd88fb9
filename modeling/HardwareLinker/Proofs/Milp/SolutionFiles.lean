import Mathlib.Data.List.Nodup
import HardwareLinker.Proofs.Except
import HardwareLinker.Proofs.Milp.Fields
import HardwareLinker.Proofs.Text.Split

/-!
The solution files of the two external solvers, as they write them, and what is read from them. One
names the variables and the other counts them, so the two readers agree as long as no two variables
share a name.
-/

namespace HardwareLinker.Milp

/-- Names by which the fields of a solution file can refer to the variables, and few enough of
them to be counted by a word. -/
structure Model.Named (m : Model Binary64) : Prop where
  distinct : (m.vars.toList.map (·.name)).Nodup
  solid : ∀ x ∈ m.vars, Text.Solid x.name.toList
  unmarked : ∀ x ∈ m.vars, x.name ≠ "**"
  counted : m.vars.size < UInt64.size

variable {m : Model Binary64} {a : Assignment Binary64}

/-- A variable is found by its name. -/
theorem indexOf?_nameOf (named : m.Named) {v : Nat} (within : v < m.vars.size) :
    m.indexOf? (m.nameOf v) = some v := by
  rw [Model.indexOf?, Array.findIdx?_eq_some_iff_getElem]
  refine ⟨within, beq_iff_eq.mpr (nameOf_eq within).symm, fun u before same => ?_⟩
  have names : m.vars[u].name = m.vars[v].name := (beq_iff_eq.mp same).trans (nameOf_eq within)
  have positions := (@List.Nodup.getElem_inj_iff _ _ named.distinct u (by simp; omega) v
    (by simpa using within)).mp (by simpa using names)
  omega

/-! ### Values carried over -/

namespace Assignment

/-- The values of some variables, written over those that stand. -/
def carry (a values : Assignment Binary64) (vs : List Nat) : Assignment Binary64 :=
  vs.foldl (fun values v => values.setIfInBounds v (a.value v)) values

theorem size_carry (values : Assignment Binary64) (vs : List Nat) :
    (a.carry values vs).size = values.size := by
  induction vs generalizing values with
  | nil => rfl
  | cons v vs ih => exact (ih _).trans Array.size_setIfInBounds

theorem value_set {values : Assignment Binary64} {u v : Nat} (within : v < values.size)
    (x : Binary64) : value (values.setIfInBounds u x) v = if u = v then x else values.value v := by
  rw [value, value, Array.getD_eq_getD_getElem?, Array.getD_eq_getD_getElem?,
    Array.getElem?_setIfInBounds]
  by_cases here : u = v
  · subst here
    rw [if_pos rfl, if_pos within, if_pos rfl]
    rfl
  · rw [if_neg here, if_neg here]

theorem value_carry {values : Assignment Binary64} {v : Nat} (within : v < values.size)
    (vs : List Nat) :
    (a.carry values vs).value v = if v ∈ vs then a.value v else values.value v := by
  induction vs generalizing values with
  | nil => rw [if_neg List.not_mem_nil]; rfl
  | cons u vs ih =>
      have step : a.carry values (u :: vs) = a.carry (values.setIfInBounds u (a.value u)) vs := rfl
      rw [step, ih (by rw [Array.size_setIfInBounds]; exact within), value_set within]
      by_cases later : v ∈ vs
      · rw [if_pos later, if_pos (List.mem_cons_of_mem u later)]
      · by_cases here : u = v
        · rw [if_neg later, if_pos here, if_pos (here ▸ List.mem_cons_self), here]
        · rw [if_neg later, if_neg here,
            if_neg fun at_v => (List.mem_cons.mp at_v).elim (fun same => here same.symm) later]

/-- Over zeros, the values are those of the assignment as soon as whatever is not carried is
zero. -/
theorem sameNumber_carry {n : Nat} {vs : List Nat}
    (complete : ∀ v < n, v ∈ vs ∨ (a.value v).isZero = true) :
    ∀ v < n, SameNumber ((a.carry (Array.replicate n 0) vs).value v) (a.value v) := by
  intro v within
  rw [value_carry (by rw [Array.size_replicate]; exact within)]
  by_cases carried : v ∈ vs
  · rw [if_pos carried]
    exact .inl rfl
  · have start : value (Array.replicate n (0 : Binary64)) v = 0 := by
      rw [value, Array.getD_eq_getD_getElem?, Array.getElem?_replicate, if_pos within]
      rfl
    rw [if_neg carried, start]
    exact .inr ⟨rfl, (complete v within).resolve_left carried⟩

end Assignment

/-! ### Values by name -/

namespace Cbc

/-- A line with the value of a variable. -/
structure Entry where
  line : List Char
  marked : Bool
  index : String
  column : Nat
  /-- Such as the reduced cost. -/
  more : List String

def Entry.fields (m : Model Binary64) (a : Assignment Binary64) (e : Entry) : List String :=
  (if e.marked then ["**"] else []) ++
    e.index :: m.nameOf e.column :: Scalar.text (a.value e.column) :: e.more

structure Entry.Shows (m : Model Binary64) (a : Assignment Binary64) (e : Entry) : Prop where
  holds : Holds e.line (e.fields m a)
  index : e.index ≠ "**"
  column : e.column < m.vars.size

structure File where
  status : List Char
  entries : List Entry

def File.text (f : File) : String :=
  String.ofList (Text.unlines (f.status :: f.entries.map (·.line)))

/-- A file with the values of an assignment in any order; zeros may be left out. -/
structure File.Shows (m : Model Binary64) (a : Assignment Binary64) (f : File) : Prop where
  one : Text.OneLine f.status
  optimal : "Optimal".toList <+: f.status
  feasible : ¬ "infeasible".toList <:+: f.status
  each : ∀ e ∈ f.entries, e.Shows m a
  complete : ∀ v < m.vars.size, (∃ e ∈ f.entries, e.column = v) ∨ (a.value v).isZero = true

theorem File.Shows.covers {f : File} (shows : f.Shows m a) :
    ∀ v < m.vars.size, v ∈ f.entries.map (·.column) ∨ (a.value v).isZero = true := fun v within =>
  (shows.complete v within).imp_left List.mem_map.mpr

theorem trim_optimal {status : List Char} (optimal : "Optimal".toList <+: status) :
    "Optimal".toList <+: Text.trim status ∧ Text.trim status <+: status := by
  obtain ⟨rest, rfl⟩ := optimal
  have start : Text.trimStart ("Optimal".toList ++ rest) = "Optimal".toList ++ rest := rfl
  have finish :
      Text.trimEnd ("Optimal".toList ++ rest) = "Optimal".toList ++ Text.trimEnd rest := by
    rw [Text.trimEnd, Text.trimEnd, List.reverse_append, List.dropWhile_append]
    split
    · next gone =>
      rw [List.isEmpty_iff.mp gone, List.reverse_nil, List.append_nil]
      rfl
    · rw [List.reverse_append, List.reverse_reverse]
  rw [Text.trim, start, finish]
  exact ⟨List.prefix_append .., (List.prefix_append_right_inj _).mpr (List.rdropWhile_prefix ..)⟩

theorem checkStatus_optimal {status : List Char} (optimal : "Optimal".toList <+: status)
    (feasible : ¬ "infeasible".toList <:+: status) : checkStatus (Text.trim status) = .ok () := by
  obtain ⟨start, part⟩ := trim_optimal optimal
  have quiet : Text.after? "infeasible".toList (Text.trim status) = none :=
    Text.after?_eq_none.mpr fun inside => feasible (inside.trans part.isInfix)
  have other : "Infeasible".toList.isPrefixOf (Text.trim status) = false := by
    obtain ⟨rest, found⟩ := start
    rw [← found]
    rfl
  rw [checkStatus, quiet, other, List.isPrefixOf_iff_prefix.mpr start]
  rfl

/-- A line gives its variable the value it shows. -/
theorem readLine_entry (named : m.Named) {e : Entry} (shows : e.Shows m a)
    (number : (a.value e.column).isNaN = false) (values : Assignment Binary64) :
    readLine m values e.line = .ok (values.setIfInBounds e.column (a.value e.column)) := by
  have name : m.nameOf e.column ≠ "**" := by
    rw [nameOf_eq shows.column]
    exact named.unmarked _ (Array.getElem_mem shows.column)
  have kept : (fieldsOf e.line).filter (· != "**") = e.index :: m.nameOf e.column ::
      Scalar.text (a.value e.column) :: e.more.filter (· != "**") := by
    rw [fieldsOf_eq shows.holds.spaced, Entry.fields]
    cases e.marked <;> simp [shows.index, name, text_ne number "**" rfl]
  rw [readLine, kept]
  simp only [readValue?_text number, indexOf?_nameOf named shows.column]

theorem foldlM_entries (named : m.Named) (numbers : ∀ v < m.vars.size, (a.value v).isNaN = false)
    {entries : List Entry} (all : ∀ e ∈ entries, e.Shows m a) (values : Assignment Binary64) :
    (entries.map (·.line)).foldlM (readLine m) values =
      .ok (a.carry values (entries.map (·.column))) := by
  induction entries generalizing values with
  | nil => rfl
  | cons e entries ih =>
      obtain ⟨here, later⟩ := List.forall_mem_cons.mp all
      rw [List.map_cons, List.foldlM_cons, readLine_entry named here (numbers _ here.column)]
      exact ih later _

theorem read_file (named : m.Named) (numbers : ∀ v < m.vars.size, (a.value v).isNaN = false)
    {f : File} (shows : f.Shows m a) :
    read m f.text = .ok (a.carry (Array.replicate m.vars.size 0) (f.entries.map (·.column))) := by
  have lines : Text.lines f.text.toList = f.status :: f.entries.map (·.line) := by
    rw [File.text, String.toList_ofList]
    refine Text.lines_unlines (List.forall_mem_cons.mpr ⟨shows.one, fun line at_line => ?_⟩)
    obtain ⟨e, at_e, rfl⟩ := List.mem_map.mp at_line
    exact (shows.each e at_e).holds.one
  rw [read, lines]
  simp only [List.headD_cons, List.tail_cons, checkStatus_optimal shows.optimal shows.feasible]
  exact foldlM_entries named numbers shows.each _

/-- The line gives a value to a name that no variable has. -/
def Foreign (m : Model Binary64) (line : List Char) : Prop :=
  ∃ fields : List String, Text.Spaced line (fields.map String.toList) ∧ ∃ index name field more,
    fields.filter (· != "**") = index :: name :: field :: more ∧ ∀ x ∈ m.vars, x.name ≠ name

theorem readLine_foreign {line : List Char} (foreign : Foreign m line)
    (values : Assignment Binary64) : ∃ fault, readLine m values line = .error fault := by
  obtain ⟨fields, spaced, index, name, field, more, kept, unknown⟩ := foreign
  rw [← fieldsOf_eq spaced] at kept
  have missing : m.indexOf? name = none := by
    rw [Model.indexOf?, Array.findIdx?_eq_none_iff]
    exact fun x at_x => beq_eq_false_iff_ne.mpr (unknown x at_x)
  rw [readLine, kept]
  cases read : readValue? (α := Binary64) field with
  | none => exact ⟨_, by simp only [read]; rfl⟩
  | some value => exact ⟨.cbcColumn name, by simp only [read, missing]⟩

theorem read_foreign {text : String}
    (foreign : ∃ line ∈ (Text.lines text.toList).tail, Foreign m line) :
    ∃ fault, read m text = .error fault := by
  obtain ⟨line, at_line, foreign⟩ := foreign
  cases status : checkStatus (Text.trim ((Text.lines text.toList).headD [])) with
  | error fault => exact ⟨fault, bind_eq_error_iff.mpr (.inl status)⟩
  | ok =>
      obtain ⟨fault, stopped⟩ := foldlM_error_of_mem (f := readLine m) (P := fun _ => True)
        (s := Array.replicate m.vars.size 0) (fun _ _ _ _ _ => trivial) at_line
        (fun values _ => readLine_foreign foreign values) trivial
      exact ⟨fault, bind_eq_error_iff.mpr (.inr ⟨(), status, stopped⟩)⟩

end Cbc

/-! ### Values by position -/

namespace Glpk

/-- What a line may say. -/
inductive Record where
  | note (fields : List String)
  | status (rows columns : String) (more : List String)
  | column (v : Nat) (more : List String)

namespace Record

/-- Columns are counted from one. -/
def fields (a : Assignment Binary64) : Record → List String
  | note fields => fields
  | status rows columns more => "s" :: "mip" :: rows :: columns :: "o" :: more
  | column v more => "j" :: toString (v + 1) :: Scalar.text (a.value v) :: more

/-- Notes are told from the other records by their first field. -/
def Fits (m : Model Binary64) : Record → Prop
  | note fields => ∀ field ∈ fields.head?, field ≠ "s" ∧ field ≠ "j"
  | status .. => True
  | column v _ => v < m.vars.size

def apply (a : Assignment Binary64) (p : Progress Binary64) : Record → Progress Binary64
  | note _ => p
  | status .. => { p with status := some "o" }
  | column v _ => { p with values := p.values.setIfInBounds v (a.value v) }

def column? : Record → Option Nat
  | column v _ => some v
  | _ => none

end Record

structure Entry where
  line : List Char
  record : Record

structure Entry.Shows (m : Model Binary64) (a : Assignment Binary64) (e : Entry) : Prop where
  holds : Holds e.line (e.record.fields a)
  fits : e.record.Fits m

def fileText (entries : List Entry) : String := String.ofList (Text.unlines (entries.map (·.line)))

/-- A file with the values of an assignment in any order; zeros may be left out. -/
structure Shows (m : Model Binary64) (a : Assignment Binary64) (entries : List Entry) : Prop where
  each : ∀ e ∈ entries, e.Shows m a
  optimal : ∃ e ∈ entries, ∃ rows columns more, e.record = .status rows columns more
  complete : ∀ v < m.vars.size, (∃ e ∈ entries, ∃ more, e.record = .column v more) ∨
    (a.value v).isZero = true

theorem Shows.covers {entries : List Entry} (shows : Shows m a entries) :
    ∀ v < m.vars.size, v ∈ (entries.map (·.record)).filterMap Record.column? ∨
      (a.value v).isZero = true := by
  intro v within
  refine (shows.complete v within).imp_left fun found => ?_
  obtain ⟨e, at_e, more, column⟩ := found
  exact List.mem_filterMap.mpr ⟨.column v more, column ▸ List.mem_map_of_mem at_e, rfl⟩

theorem natBelow?_column (named : m.Named) {v : Nat} (within : v < m.vars.size) :
    natBelow? (UInt64.size - 1) (toString (v + 1)) = some (v + 1) := by
  have counted := named.counted
  exact natBelow?_eq_some.mpr ⟨denotes_toString (v + 1), by omega⟩

theorem readLine_entry (named : m.Named) (numbers : ∀ v < m.vars.size, (a.value v).isNaN = false)
    {e : Entry} (shows : e.Shows m a) {p : Progress Binary64}
    (sized : p.values.size = m.vars.size) : readLine p e.line = .ok (e.record.apply a p) := by
  obtain ⟨line, record⟩ := e
  obtain ⟨holds, fits⟩ := shows
  rw [readLine, fieldsOf_eq holds.spaced]
  cases record with
  | note fields =>
      cases fields with
      | nil => rfl
      | cons field more =>
          obtain ⟨noStatus, noColumn⟩ := fits field rfl
          simp only [Record.fields, Record.apply]
          split
          · next same => exact absurd (List.cons.inj same).1 noStatus
          · next same => exact absurd (List.cons.inj same).1 noColumn
          · rfl
  | status rows columns more => rfl
  | column v more =>
      have range : 0 < v + 1 ∧ v + 1 ≤ p.values.size := ⟨by omega, by rw [sized]; exact fits⟩
      simp only [Record.fields, readColumn, natBelow?_column named fits,
        readValue?_text (numbers v fits), if_pos range]
      rfl

theorem size_apply (p : Progress Binary64) (r : Record) :
    (r.apply a p).values.size = p.values.size := by
  cases r with
  | note fields => rfl
  | status rows columns more => rfl
  | column v more => exact Array.size_setIfInBounds

theorem foldlM_entries (named : m.Named) (numbers : ∀ v < m.vars.size, (a.value v).isNaN = false)
    {entries : List Entry} (all : ∀ e ∈ entries, e.Shows m a) {p : Progress Binary64}
    (sized : p.values.size = m.vars.size) :
    (entries.map (·.line)).foldlM readLine p =
      .ok ((entries.map (·.record)).foldl (Record.apply a) p) := by
  induction entries generalizing p with
  | nil => rfl
  | cons e entries ih =>
      obtain ⟨here, later⟩ := List.forall_mem_cons.mp all
      rw [List.map_cons, List.foldlM_cons, readLine_entry named numbers here sized]
      exact ih later ((size_apply p e.record).trans sized)

theorem values_foldl (records : List Record) (p : Progress Binary64) :
    (records.foldl (Record.apply a) p).values =
      a.carry p.values (records.filterMap Record.column?) := by
  induction records generalizing p with
  | nil => rfl
  | cons r records ih =>
      rw [List.foldl_cons, ih]
      cases r <;> rfl

/-- The file is that of an optimum once a record says so: every status record does. -/
theorem status_foldl (records : List Record) {p : Progress Binary64}
    (optimal : p.status = some "o" ∨ ∃ rows columns more, .status rows columns more ∈ records) :
    (records.foldl (Record.apply a) p).status = some "o" := by
  induction records generalizing p with
  | nil =>
      cases optimal with
      | inl said => exact said
      | inr found =>
          obtain ⟨rows, columns, more, at_record⟩ := found
          exact absurd at_record List.not_mem_nil
  | cons r records ih =>
      refine ih ?_
      cases optimal with
      | inl said =>
          left
          cases r with
          | note fields => exact said
          | status rows columns more => rfl
          | column v more => exact said
      | inr found =>
          obtain ⟨rows, columns, more, at_record⟩ := found
          cases List.mem_cons.mp at_record with
          | inl here => left; rw [← here]; rfl
          | inr later => exact .inr ⟨rows, columns, more, later⟩

theorem read_file (named : m.Named) (numbers : ∀ v < m.vars.size, (a.value v).isNaN = false)
    {entries : List Entry} (shows : Shows m a entries) :
    read m (fileText entries) = .ok (a.carry (Array.replicate m.vars.size 0)
      ((entries.map (·.record)).filterMap Record.column?)) := by
  have lines : Text.lines (fileText entries).toList = entries.map (·.line) := by
    rw [fileText, String.toList_ofList]
    refine Text.lines_unlines fun line at_line => ?_
    obtain ⟨e, at_e, rfl⟩ := List.mem_map.mp at_line
    exact (shows.each e at_e).holds.one
  obtain ⟨e, at_e, rows, columns, more, said⟩ := shows.optimal
  have status := status_foldl (a := a) (entries.map (·.record))
    (p := { values := Array.replicate m.vars.size 0 })
    (.inr ⟨rows, columns, more, said ▸ List.mem_map_of_mem at_e⟩)
  rw [read, lines]
  simp only [foldlM_entries named numbers shows.each
    (p := { values := Array.replicate m.vars.size 0 }) Array.size_replicate]
  simp only [bind, Except.bind, status, values_foldl]
  rfl

/-- The line gives a value to a column that is not the number of any variable. -/
def Foreign (m : Model Binary64) (line : List Char) : Prop :=
  ∃ column field more,
    Text.Spaced line (("j" :: column :: field :: more : List String).map String.toList) ∧
      ∀ v < m.vars.size, ¬ Denotes column.toList (v + 1)

theorem readLine_foreign {line : List Char} (foreign : Foreign m line) {p : Progress Binary64}
    (sized : p.values.size = m.vars.size) : ∃ fault, readLine p line = .error fault := by
  obtain ⟨column, field, more, spaced, beyond⟩ := foreign
  simp only [readLine, fieldsOf_eq spaced, readColumn]
  cases counted : natBelow? (UInt64.size - 1) column with
  | none => exact ⟨_, rfl⟩
  | some n =>
      cases readValue? (α := Binary64) field with
      | none => exact ⟨_, rfl⟩
      | some value =>
          have range : ¬ (0 < n ∧ n ≤ p.values.size) := by
            intro within
            refine beyond (n - 1) (by omega) ?_
            rw [Nat.sub_add_cancel within.1]
            exact (natBelow?_eq_some.mp counted).1
          exact ⟨.glpkRange n, if_neg range⟩

/-- A line keeps the number of values. -/
theorem size_readLine {p p' : Progress Binary64} {line : List Char}
    (run : readLine p line = .ok p') : p'.values.size = p.values.size := by
  rw [readLine] at run
  split at run
  · cases run
    rfl
  · rw [readColumn] at run
    split at run
    · cases run
    · split at run
      · cases run
      · split at run
        · cases run
          exact Array.size_setIfInBounds
        · cases run
  · cases run
    rfl

theorem read_foreign {text : String} (foreign : ∃ line ∈ Text.lines text.toList, Foreign m line) :
    ∃ fault, read m text = .error fault := by
  obtain ⟨line, at_line, foreign⟩ := foreign
  obtain ⟨fault, stopped⟩ := foldlM_error_of_mem (f := readLine)
    (P := fun p => p.values.size = m.vars.size) (s := { values := Array.replicate m.vars.size 0 })
    (fun _ _ _ sized run => (size_readLine run).trans sized) at_line
    (fun p sized => readLine_foreign foreign sized) Array.size_replicate
  exact ⟨fault, bind_eq_error_iff.mpr (.inl stopped)⟩

end Glpk

/-! ### Both readers -/

/-- The files that the two solvers write for one assignment are read as that assignment, and a file
with a value for something that is not in the model is refused. -/
theorem readers_agree (named : m.Named) :
    (∀ (a : Assignment Binary64) (byName : Cbc.File) (byPosition : List Glpk.Entry),
      (∀ v < m.vars.size, (a.value v).isNaN = false) → byName.Shows m a →
      Glpk.Shows m a byPosition → ∃ x y, Cbc.read m byName.text = .ok x ∧
      Glpk.read m (Glpk.fileText byPosition) = .ok y ∧
        x.size = m.vars.size ∧ y.size = m.vars.size ∧
        ∀ v < m.vars.size, SameNumber (x.value v) (a.value v) ∧ SameNumber (y.value v) (a.value v) ∧
          SameNumber (x.value v) (y.value v)) ∧
    (∀ text : String, (∃ line ∈ (Text.lines text.toList).tail, Cbc.Foreign m line) →
      ∃ fault, Cbc.read m text = .error fault) ∧
    ∀ text : String, (∃ line ∈ Text.lines text.toList, Glpk.Foreign m line) →
      ∃ fault, Glpk.read m text = .error fault := by
  refine ⟨?_, fun text => Cbc.read_foreign, fun text => Glpk.read_foreign⟩
  intro a byName byPosition numbers shows shows'
  refine ⟨_, _, Cbc.read_file named numbers shows, Glpk.read_file named numbers shows', ?_, ?_, ?_⟩
  · rw [Assignment.size_carry, Array.size_replicate]
  · rw [Assignment.size_carry, Array.size_replicate]
  · intro v within
    have left := Assignment.sameNumber_carry shows.covers v within
    have right := Assignment.sameNumber_carry shows'.covers v within
    exact ⟨left, right, left.via right⟩

/-! ### A model of two variables, one of them zero -/

def twoColumns : Model Binary64 where
  vars := #[⟨"x_0", false, 0, some 10.0⟩, ⟨"s_0_0", true, 0, some 1⟩]
  rows := []
  objective := [(0, 1)]

def halves : Assignment Binary64 := #[2.5, 0]

def halvesByName : Cbc.File where
  status := "Optimal - objective value 2.5".toList
  entries := [⟨" ** 0 x_0 2.5 0".toList, true, "0", 0, ["0"]⟩]

def halvesByPosition : List Glpk.Entry :=
  [⟨" c Problem:".toList, .note ["c", "Problem:"]⟩,
    ⟨" s mip 2 2 o 2.5".toList, .status "2" "2" ["2.5"]⟩, ⟨" j 1 2.5".toList, .column 0 []⟩]

theorem named_twoColumns : twoColumns.Named where
  distinct := by decide
  solid := by decide +kernel
  unmarked := by decide
  counted := by decide

theorem shows_halvesByName : halvesByName.Shows twoColumns halves where
  one := by decide +kernel
  optimal := by decide
  feasible := by decide
  each := by
    refine List.forall_mem_singleton.mpr ⟨?_, by decide, by decide⟩
    exact holds_spread ["**", "0", "x_0", "2.5", "0"] (by decide +kernel)
  complete := by
    intro v within
    match v with
    | 0 => exact .inl ⟨_, List.mem_cons_self, rfl⟩
    | 1 => exact .inr rfl

theorem shows_halvesByPosition : Glpk.Shows twoColumns halves halvesByPosition where
  each := by
    refine List.forall_mem_cons.mpr ⟨⟨?note, ?mark⟩, List.forall_mem_cons.mpr ⟨⟨?status, trivial⟩,
      List.forall_mem_singleton.mpr ⟨?column, ?within⟩⟩⟩
    case note => exact holds_spread ["c", "Problem:"] (by decide +kernel)
    case mark =>
      intro field first
      cases first
      decide
    case status => exact holds_spread ["s", "mip", "2", "2", "o", "2.5"] (by decide +kernel)
    case column => exact holds_spread ["j", "1", "2.5"] (by decide +kernel)
    case within => exact Nat.zero_lt_two
  optimal := ⟨_, List.mem_cons_of_mem _ List.mem_cons_self, "2", "2", ["2.5"], rfl⟩
  complete := by
    intro v within
    match v with
    | 0 =>
        exact .inl ⟨_, List.mem_cons_of_mem _ (List.mem_cons_of_mem _ List.mem_cons_self), [], rfl⟩
    | 1 => exact .inr rfl

/-- Both files of the two values are read, although neither gives the second. -/
theorem readers_agree_halves : ∃ x y : Assignment Binary64,
    Cbc.read twoColumns "Optimal - objective value 2.5\n ** 0 x_0 2.5 0\n" = .ok x ∧
      Glpk.read twoColumns " c Problem:\n s mip 2 2 o 2.5\n j 1 2.5\n" = .ok y ∧
      ∀ v < 2, SameNumber (x.value v) (halves.value v) ∧
        SameNumber (y.value v) (halves.value v) := by
  obtain ⟨x, y, byName, byPosition, -, -, same⟩ :=
    (readers_agree named_twoColumns).1 halves halvesByName halvesByPosition (by decide +kernel)
      shows_halvesByName shows_halvesByPosition
  exact ⟨x, y, byName, byPosition, fun v within => ⟨(same v within).1, (same v within).2.1⟩⟩

end HardwareLinker.Milp
