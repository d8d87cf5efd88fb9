import HardwareLinker.Proofs.Milp.LpReader

/-!
Models in the LP format, read back: the columns in their order, the costs, the rows, the bounds and
the binaries.
-/

namespace HardwareLinker.Milp

open Lp

/-! ### The sections of a model -/

namespace Model

variable (m : Model Binary64)

/-- The sum of the coefficients of a variable in the objective. -/
def cost (v : Nat) : Binary64 := ((m.objective.filter (·.1 == v)).map (·.2)).foldl (· + ·) 0

def priced : List (Binary64 × String) := m.costs.toList.zip (m.vars.toList.map (·.name))

def rowFields (r : Row Binary64) : List String :=
  sumFields (m.rowTerms r) ++ [r.sense.text, Scalar.text r.bound]

def boundFields (x : Variable Binary64) : List String :=
  [if Scalar.isFinite x.lower then Scalar.text x.lower else "-inf", "<=", x.name, "<=",
    match x.upper with
    | some u => if Scalar.isFinite u then Scalar.text u else "+inf"
    | none => "+inf"]

def continuous : List (Variable Binary64) := m.vars.toList.filter (!·.binary)

def binaries : List (Variable Binary64) := m.vars.toList.filter (·.binary)

def rowLines : List (List Char) := m.rows.map fun r => labelled r.name (m.rowFields r)

def boundLines : List (List Char) := m.continuous.map fun x => spaced (boundFields x)

def binaryLines : List (List Char) := m.binaries.map fun x => spaced [x.name]

/-- The lines behind the bounds; without binaries there is no section of them. -/
def lastLines : List (List Char) :=
  if m.binaries.isEmpty then ["End".toList]
  else "Binaries".toList :: (m.binaryLines ++ ["End".toList])

def lpLines : List (List Char) :=
  "\\ lim placement model".toList :: "Minimize".toList :: ([labelled "obj" (sumFields m.priced)] ++
    "Subject To".toList :: (m.rowLines ++ "Bounds".toList :: (m.boundLines ++ m.lastLines)))

theorem join_lines {β : Type} (l : List β) (text : β → String) (line : β → List Char)
    (ends : ∀ b, (text b).toList = line b ++ ['\n']) :
    (String.join (l.map text)).toList = Text.unlines (l.map line) := by
  rw [String.toList_join, List.flatMap_map, Text.unlines, List.flatMap_map]
  exact List.flatMap_congr fun b _ => ends b

theorem rowLine_eq (r : Row Binary64) :
    (m.rowLine r).toList = labelled r.name (m.rowFields r) ++ ['\n'] := by
  simp [rowLine, labelled, rowFields, spaced, Text.spread_append, termsText_eq]
  simp [Text.spread]

theorem boundLine_eq (x : Variable Binary64) :
    (boundLine x).toList = spaced (boundFields x) ++ ['\n'] := by
  obtain ⟨name, binary, lower, upper⟩ := x
  cases upper with
  | none => simp [boundLine, boundFields, spaced, Text.spread]
  | some u => simp [boundLine, boundFields, spaced, Text.spread]

theorem boundFields_eq {x : Variable Binary64}
    (finite : x.lower.isFinite = true ∧ ∀ u ∈ x.upper, u.isFinite = true) : boundFields x =
      [Scalar.text x.lower, "<=", x.name, "<=", (x.upper.map Scalar.text).getD "+inf"] := by
  obtain ⟨name, binary, lower, upper⟩ := x
  have low : Scalar.isFinite lower = true := finite.1
  cases upper with
  | none => rw [boundFields, low]; rfl
  | some u =>
      have up : Scalar.isFinite u = true := finite.2 u rfl
      simp only [boundFields, low, up]
      rfl

theorem toLp_eq : m.toLp.toList = Text.unlines m.lpLines := by
  have rows := join_lines m.rows m.rowLine _ m.rowLine_eq
  have bounds := join_lines m.continuous boundLine _ boundLine_eq
  have binaries := join_lines m.binaries (fun x => " " ++ x.name ++ "\n") (fun x => spaced [x.name])
    fun x => by simp [spaced, Text.spread]
  have costs := termsText_eq m.priced
  have last : (if m.binaries.isEmpty then "" else "Binaries\n" ++
      String.join (m.binaries.map fun x => " " ++ x.name ++ "\n")).toList ++ "End\n".toList =
      Text.unlines m.lastLines := by
    rw [lastLines]
    split
    · rfl
    · rw [String.toList_append, binaries]
      simp [Text.unlines, binaryLines]
  change ("\\ lim placement model\nMinimize\n obj:" ++ termsText m.priced ++ "\nSubject To\n" ++
    String.join (m.rows.map m.rowLine) ++ "Bounds\n" ++ String.join (m.continuous.map boundLine) ++
    (if m.binaries.isEmpty then "" else "Binaries\n" ++
      String.join (m.binaries.map fun x => " " ++ x.name ++ "\n")) ++ "End\n").toList = _
  simp only [String.toList_append, rows, bounds, costs, List.append_assoc] at last ⊢
  rw [last]
  simp [Text.unlines, lpLines, rowLines, boundLines, labelled, spaced, Text.spread]

/-- What is read of the text. -/
def lpFile : Lp.File Binary64 where
  costs := m.priced.map fun (c, name) => (readBack c, name)
  rows := m.rows.map fun r =>
    { name := r.name, terms := r.terms.map fun (v, c) => (readBack c, m.nameOf v), sense := r.sense,
      bound := r.bound }
  bounds := m.continuous.map fun x => { name := x.name, lower := x.lower, upper := x.upper }
  binaries := m.binaries.map (·.name)

theorem head_lastLines : ∀ line ∈ m.lastLines.head?, Lp.isIndented line = false := by
  rw [lastLines]
  split <;> (intro line first; cases first; decide)

/-! ### Costs -/

theorem foldl_modify (terms : Terms Binary64) (start : Array Binary64) (v : Nat) :
    (terms.foldl (fun costs (v, c) => costs.modify v (· + c)) start)[v]? =
      start[v]?.map fun x => ((terms.filter (·.1 == v)).map (·.2)).foldl (· + ·) x := by
  induction terms generalizing start with
  | nil => simp
  | cons t terms ih =>
      rw [List.foldl_cons, ih, Array.getElem?_modify]
      by_cases here : t.1 = v
      · rw [if_pos here, List.filter_cons_of_pos (by simpa using here), Option.map_map]
        rfl
      · rw [if_neg here, List.filter_cons_of_neg (by simpa using here)]

theorem costs_getElem? {m : Model Binary64} {v : Nat} (within : v < m.vars.size) :
    m.costs[v]? = some (m.cost v) := by
  rw [Model.costs, foldl_modify, Array.getElem?_replicate, if_pos within]
  rfl

theorem size_costs : m.costs.size = m.vars.size := by
  have kept (terms : Terms Binary64) (start : Array Binary64) :
      (terms.foldl (fun costs (v, c) => costs.modify v (· + c)) start).size = start.size := by
    induction terms generalizing start with
    | nil => rfl
    | cons t terms ih => exact (ih _).trans Array.size_modify
  exact (kept _ _).trans Array.size_replicate

theorem priced_getElem? {m : Model Binary64} {v : Nat} (within : v < m.vars.size) :
    m.priced[v]? = some (m.cost v, m.nameOf v) := by
  rw [priced, List.getElem?_zip_eq_some]
  refine ⟨by rw [Array.getElem?_toList]; exact costs_getElem? within, ?_⟩
  rw [List.getElem?_map, Array.getElem?_toList, Array.getElem?_eq_getElem within, nameOf_eq within]
  rfl

theorem length_priced : m.priced.length = m.vars.size := by
  rw [priced, List.length_zip, List.length_map, Array.length_toList, Array.length_toList,
    size_costs, Nat.min_self]

theorem names_priced : m.priced.map (·.2) = m.vars.toList.map (·.name) := by
  refine List.map_snd_zip ?_
  rw [List.length_map, Array.length_toList, Array.length_toList, size_costs]

end Model

/-- What the format can hold: names that are one field each, numbers that are finite, and rows of at
least one term. -/
structure Model.Denotable (m : Model Binary64) : Prop where
  distinct : (m.vars.toList.map (·.name)).Nodup
  columns : ∀ x ∈ m.vars, Text.Solid x.name.toList
  rows : ∀ r ∈ m.rows, Plain r.name ∧ r.terms ≠ [] ∧ r.bound.isFinite = true
  terms : ∀ r ∈ m.rows, ∀ t ∈ r.terms, t.1 < m.vars.size ∧ t.2.isFinite = true
  costs : ∀ t ∈ m.objective, t.2.isFinite = true
  bounds :
    ∀ x ∈ m.vars, x.binary = false → x.lower.isFinite = true ∧ ∀ u ∈ x.upper, u.isFinite = true

namespace Model.Denotable

variable {m : Model Binary64} (denotable : m.Denotable)

include denotable

theorem solid_nameOf {v : Nat} (within : v < m.vars.size) : Text.Solid (m.nameOf v).toList := by
  rw [nameOf_eq within]
  exact denotable.columns _ (Array.getElem_mem within)

theorem rowTerms_eq {r : Row Binary64} (at_row : r ∈ m.rows) :
    m.rowTerms r = r.terms.map fun (v, c) => (c, m.nameOf v) := by
  have some := (denotable.rows r at_row).2.1
  rw [Model.rowTerms, if_neg (by simpa using some)]

theorem fit_rowTerms {r : Row Binary64} (at_row : r ∈ m.rows) :
    ∀ t ∈ m.rowTerms r, t.1.isNaN = false ∧ Text.Solid t.2.toList := by
  intro t at_t
  rw [denotable.rowTerms_eq at_row] at at_t
  obtain ⟨u, at_u, rfl⟩ := List.mem_map.mp at_t
  obtain ⟨within, finite⟩ := denotable.terms r at_row u at_u
  exact ⟨Binary64.isNaN_of_isFinite finite, denotable.solid_nameOf within⟩

theorem solid_rowFields {r : Row Binary64} (at_row : r ∈ m.rows) :
    ∀ field ∈ m.rowFields r, Text.Solid field.toList := by
  have sense : Text.Solid r.sense.text.toList := by
    cases r.sense <;> decide +kernel
  have bound := Decimal.text_solid (Binary64.isNaN_of_isFinite (denotable.rows r at_row).2.2)
  intro field at_field
  cases List.mem_append.mp at_field with
  | inl sum => exact solid_sumFields (denotable.fit_rowTerms at_row) field sum
  | inr rest =>
      cases List.mem_cons.mp rest with
      | inl at_sense => rw [at_sense]; exact sense
      | inr last => rw [List.mem_singleton.mp last]; exact bound

/-- The row as it is read. -/
theorem row?_labelled {r : Row Binary64} (at_row : r ∈ m.rows) :
    Lp.row? (labelled r.name (m.rowFields r)) = some
      { name := r.name, terms := r.terms.map fun (v, c) => (readBack c, m.nameOf v),
        sense := r.sense, bound := r.bound } := by
  obtain ⟨plain, -, finite⟩ := denotable.rows r at_row
  have sum := sum?_sumFields fun t at_t => (denotable.fit_rowTerms at_row t at_t).1
  rw [denotable.rowTerms_eq at_row, List.map_map] at sum
  have reversed : (m.rowFields r).reverse =
      Scalar.text r.bound :: r.sense.text :: (sumFields (m.rowTerms r)).reverse := by
    rw [rowFields, List.reverse_append]
    rfl
  rw [Lp.row?, labelled?_labelled plain (denotable.solid_rowFields at_row)]
  simp only [Option.bind_eq_bind, Option.bind_some, reversed, List.reverse_reverse, sense?_text,
    readValue?_text (Binary64.isNaN_of_isFinite finite), denotable.rowTerms_eq at_row, sum]
  rfl

theorem solid_boundFields {x : Variable Binary64} (at_x : x ∈ m.continuous) :
    ∀ field ∈ boundFields x, Text.Solid field.toList := by
  obtain ⟨at_x, kind⟩ := List.mem_filter.mp at_x
  have finite := denotable.bounds x (Array.mem_toList_iff.mp at_x) (by simpa using kind)
  have sign : Text.Solid "<=".toList := by decide +kernel
  have upper : Text.Solid ((x.upper.map Scalar.text).getD "+inf").toList := by
    cases up : x.upper with
    | none => decide +kernel
    | some u => exact Decimal.text_solid (Binary64.isNaN_of_isFinite (finite.2 u up))
  rw [boundFields_eq finite]
  simp only [List.forall_mem_cons]
  exact ⟨Decimal.text_solid (Binary64.isNaN_of_isFinite finite.1), sign,
    denotable.columns x (Array.mem_toList_iff.mp at_x), sign, upper,
    fun _ none => absurd none List.not_mem_nil⟩

/-- The bounds as they are read. -/
theorem bounds?_spaced {x : Variable Binary64} (at_x : x ∈ m.continuous) :
    Lp.bounds? (spaced (boundFields x)) =
      some { name := x.name, lower := x.lower, upper := x.upper } := by
  have solid := denotable.solid_boundFields at_x
  obtain ⟨at_x, kind⟩ := List.mem_filter.mp at_x
  have finite := denotable.bounds x (Array.mem_toList_iff.mp at_x) (by simpa using kind)
  rw [Lp.bounds?, fieldsOf_spaced solid, boundFields_eq finite]
  simp only [readValue?_text (Binary64.isNaN_of_isFinite finite.1)]
  cases up : x.upper with
  | none => rfl
  | some u =>
      have value : readValue? ((Option.map Scalar.text (some u)).getD "+inf") = some u :=
        readValue?_text (Binary64.isNaN_of_isFinite (finite.2 u up))
      have small : Scalar.isFinite u = true := finite.2 u up
      simp only [value, Option.bind_eq_bind, Option.bind_some, small]
      rfl

theorem name?_spaced {x : Variable Binary64} (at_x : x ∈ m.binaries) :
    Lp.name? (spaced [x.name]) = some x.name := by
  have solid := denotable.columns x (Array.mem_toList_iff.mp (List.mem_filter.mp at_x).1)
  rw [Lp.name?, fieldsOf_spaced (List.forall_mem_singleton.mpr solid)]

/-- Finite summands leave every cost a number, infinite as it may be. -/
theorem isNaN_cost (v : Nat) : (m.cost v).isNaN = false := by
  have kept (summands : List Binary64) (finite : ∀ c ∈ summands, c.isFinite = true)
      {start : Binary64} (number : start.isNaN = false) :
      (summands.foldl (· + ·) start).isNaN = false := by
    induction summands generalizing start with
    | nil => exact number
    | cons c summands ih =>
        obtain ⟨here, later⟩ := List.forall_mem_cons.mp finite
        exact ih later (Binary64.isNaN_add number here)
  refine kept _ (fun c at_c => ?_) rfl
  obtain ⟨t, at_t, rfl⟩ := List.mem_map.mp at_c
  exact denotable.costs t (List.mem_filter.mp at_t).1

theorem fit_priced : ∀ t ∈ m.priced, t.1.isNaN = false ∧ Text.Solid t.2.toList := by
  intro t at_t
  obtain ⟨v, within, rfl⟩ := List.mem_iff_getElem.mp at_t
  have within' : v < m.vars.size := m.length_priced ▸ within
  have same : m.priced[v] = (m.cost v, m.nameOf v) :=
    Option.some.inj ((List.getElem?_eq_getElem within).symm.trans (priced_getElem? within'))
  rw [same]
  exact ⟨denotable.isNaN_cost v, denotable.solid_nameOf within'⟩

/-! ### The whole text -/

theorem inner_costs : Inner (labelled "obj" (sumFields m.priced)) :=
  inner_labelled ⟨by decide +kernel, by decide⟩ (solid_sumFields denotable.fit_priced)

theorem inner_rows : ∀ line ∈ m.rowLines, Inner line := by
  intro line at_line
  obtain ⟨r, at_row, rfl⟩ := List.mem_map.mp at_line
  exact inner_labelled (denotable.rows r at_row).1 (denotable.solid_rowFields at_row)

theorem inner_bounds : ∀ line ∈ m.boundLines, Inner line := by
  intro line at_line
  obtain ⟨x, at_x, rfl⟩ := List.mem_map.mp at_line
  exact inner_spaced (denotable.solid_boundFields at_x)

theorem inner_binaries : ∀ line ∈ m.binaryLines, Inner line := by
  intro line at_line
  obtain ⟨x, at_x, rfl⟩ := List.mem_map.mp at_line
  exact inner_spaced (List.forall_mem_singleton.mpr
    (denotable.columns x (Array.mem_toList_iff.mp (List.mem_filter.mp at_x).1)))

theorem kept_lastLines : ∀ line ∈ m.lastLines, Kept line := by
  have last : ∀ line ∈ ["End".toList], Kept line := List.forall_mem_singleton.mpr (by decide)
  rw [lastLines]
  split
  · exact last
  · refine List.forall_mem_cons.mpr
      ⟨by decide, List.forall_mem_append.mpr ⟨fun line at_line => ?_, last⟩⟩
    exact (denotable.inner_binaries line at_line).kept

theorem kept_lines : ∀ line ∈ m.lpLines.tail, Kept line := by
  have rows : ∀ line ∈ m.rowLines, Kept line :=
    fun line at_line => (denotable.inner_rows line at_line).kept
  have bounds : ∀ line ∈ m.boundLines, Kept line :=
    fun line at_line => (denotable.inner_bounds line at_line).kept
  rw [lpLines, List.tail_cons]
  simp only [List.forall_mem_cons, List.forall_mem_append]
  exact ⟨by decide, ⟨denotable.inner_costs.kept, fun _ none => absurd none List.not_mem_nil⟩,
    by decide, rows, by decide, bounds, denotable.kept_lastLines⟩

theorem lines_toLp : (Text.lines m.toLp.toList).filter (fun line => line.head? != some '\\') =
    m.lpLines.tail := by
  have all : ∀ line ∈ m.lpLines, Text.OneLine line :=
    List.forall_mem_cons.mpr ⟨by decide, fun line at_line => (denotable.kept_lines line at_line).1⟩
  rw [toLp_eq, Text.lines_unlines all]
  exact List.filter_eq_self.mpr fun line at_line => (denotable.kept_lines line at_line).2

theorem under?_binaries : (Lp.under? "Binaries" m.lastLines).getD ([], m.lastLines) =
    (m.binaryLines, ["End".toList]) := by
  rw [lastLines]
  split
  · next none =>
    rw [binaryLines, List.isEmpty_iff.mp none]
    rfl
  · rw [under?_eq "Binaries" denotable.inner_binaries _ (by decide)]
    rfl

/-- The text of a model is read section by section. -/
theorem read?_eq : Lp.read? m.toLp = some m.lpFile := by
  have goal : Lp.costs? [labelled "obj" (sumFields m.priced)] =
      some (m.priced.map fun (c, name) => (readBack c, name)) := by
    rw [Lp.costs?,
      labelled?_labelled ⟨by decide +kernel, by decide⟩ (solid_sumFields denotable.fit_priced)]
    exact sum?_sumFields fun t at_t => (denotable.fit_priced t at_t).1
  have costs := under?_eq "Minimize" (List.forall_mem_singleton.mpr denotable.inner_costs)
    ("Subject To".toList :: (m.rowLines ++ "Bounds".toList :: (m.boundLines ++ m.lastLines)))
    (by intro line first; cases first; decide)
  have rows := under?_eq "Subject To" denotable.inner_rows
    ("Bounds".toList :: (m.boundLines ++ m.lastLines)) (by intro line first; cases first; decide)
  have bounds := under?_eq "Bounds" denotable.inner_bounds _ m.head_lastLines
  have rowsRead : m.rowLines.mapM Lp.row? = some m.lpFile.rows :=
    mapM_map fun r at_row => denotable.row?_labelled at_row
  have boundsRead : m.boundLines.mapM Lp.bounds? = some m.lpFile.bounds :=
    mapM_map fun x at_x => denotable.bounds?_spaced at_x
  have binariesRead : m.binaryLines.mapM Lp.name? = some m.lpFile.binaries :=
    mapM_map fun x at_x => denotable.name?_spaced at_x
  rw [Lp.read?, denotable.lines_toLp, lpLines, List.tail_cons]
  simp only [Option.bind_eq_bind, costs, Option.bind_some, rows, bounds,
    denotable.under?_binaries, goal, rowsRead, boundsRead, binariesRead]
  rfl

/-! ### Columns -/

theorem columns_lpFile : m.lpFile.columns = m.vars.toList.map (·.name) := by
  have costs : m.lpFile.costs.map (·.2) = m.vars.toList.map (·.name) := by
    rw [← m.names_priced, lpFile, List.map_map]
    rfl
  rw [Lp.File.columns, List.append_assoc, List.append_assoc, costs]
  refine eraseDups_append denotable.distinct fun name at_name => ?_
  simp only [List.mem_append] at at_name
  cases at_name with
  | inl row =>
      obtain ⟨read, at_read, at_name⟩ := List.mem_flatMap.mp row
      obtain ⟨r, at_row, rfl⟩ := List.mem_map.mp at_read
      obtain ⟨term, at_term, rfl⟩ := List.mem_map.mp at_name
      obtain ⟨t, at_t, rfl⟩ := List.mem_map.mp at_term
      have within := (denotable.terms r at_row t at_t).1
      exact List.mem_map.mpr ⟨m.vars[t.1], Array.getElem_mem_toList within, (nameOf_eq within).symm⟩
  | inr rest =>
      cases rest with
      | inl bound =>
          obtain ⟨read, at_read, rfl⟩ := List.mem_map.mp bound
          obtain ⟨x, at_x, rfl⟩ := List.mem_map.mp at_read
          exact List.mem_map_of_mem (List.mem_filter.mp at_x).1
      | inr binary =>
          obtain ⟨x, at_x, rfl⟩ := List.mem_map.mp binary
          exact List.mem_map_of_mem (List.mem_filter.mp at_x).1

end Model.Denotable

/-- A row that is read as it is in the model, up to the signs of zeros. -/
structure SameRow (m : Model Binary64) (read : Lp.Row Binary64) (r : Row Binary64) : Prop where
  name : read.name = r.name
  terms :
    List.Forall₂ (fun term t => term.2 = m.nameOf t.1 ∧ SameNumber term.1 t.2) read.terms r.terms
  sense : read.sense = r.sense
  bound : read.bound = r.bound

/-- The text of a model is read as the model: its columns by first appearance, the cost of each, its
rows, the bounds of its continuous variables and its binaries. -/
theorem read?_toLp {m : Model Binary64} (denotable : m.Denotable) :
    ∃ file : Lp.File Binary64, Lp.read? m.toLp = some file ∧
      file.columns = m.vars.toList.map (·.name) ∧
      file.costs.length = m.vars.size ∧
      (∀ v < m.vars.size, ∃ c, file.costs[v]? = some (c, m.nameOf v) ∧ SameNumber c (m.cost v)) ∧
      List.Forall₂ (SameRow m) file.rows m.rows ∧
      file.bounds = (m.vars.toList.filter (!·.binary)).map
        (fun x => { name := x.name, lower := x.lower, upper := x.upper }) ∧
      file.binaries = (m.vars.toList.filter (·.binary)).map (·.name) := by
  refine ⟨m.lpFile, denotable.read?_eq, denotable.columns_lpFile, ?length, ?costs, ?rows, rfl, rfl⟩
  case length => rw [Model.lpFile, List.length_map, m.length_priced]
  case costs =>
    intro v within
    refine ⟨readBack (m.cost v), ?_, sameNumber_readBack (denotable.isNaN_cost v)⟩
    rw [Model.lpFile, List.getElem?_map, m.priced_getElem? within]
    rfl
  case rows =>
    refine List.forall₂_map_left_iff.mpr (List.forall₂_same.mpr fun r at_row => ⟨rfl, ?_, rfl, rfl⟩)
    refine List.forall₂_map_left_iff.mpr (List.forall₂_same.mpr fun t at_t => ⟨rfl, ?_⟩)
    exact sameNumber_readBack (Binary64.isNaN_of_isFinite (denotable.terms r at_row t at_t).2)

/-! ### A model of one continuous variable and one binary -/

def gated : Model Binary64 where
  vars := #[⟨"x_0", false, 0, some 10.0⟩, ⟨"s_0_0", true, 0, some 1⟩]
  rows := [⟨"r0", [(0, 1), (1, -5.0)], .atMost, 0⟩, ⟨"r1", [(0, 1)], .atLeast, 2.5⟩]
  objective := [(0, 1)]

theorem denotable_gated : gated.Denotable where
  distinct := by decide
  columns := by decide +kernel
  rows := by
    refine List.forall_mem_cons.mpr ⟨⟨⟨by decide +kernel, by decide⟩, by decide, by decide⟩,
      List.forall_mem_singleton.mpr ⟨⟨by decide +kernel, by decide⟩, by decide, by decide +kernel⟩⟩
  terms := by decide +kernel
  costs := by decide
  bounds := by decide +kernel

theorem read?_toLp_gated : ∃ file : Lp.File Binary64,
    Lp.read? ("\\ lim placement model\nMinimize\n obj: 1 x_0 + 0 s_0_0\nSubject To\n" ++
      " r0: 1 x_0 - 5 s_0_0 <= 0\n r1: 1 x_0 >= 2.5\nBounds\n 0 <= x_0 <= 10\n" ++
      "Binaries\n s_0_0\nEnd\n") = some file ∧
      file.columns = ["x_0", "s_0_0"] ∧ List.Forall₂ (SameRow gated) file.rows gated.rows ∧
      file.binaries = ["s_0_0"] := by
  have text :
      gated.toLp = "\\ lim placement model\nMinimize\n obj: 1 x_0 + 0 s_0_0\nSubject To\n" ++
      " r0: 1 x_0 - 5 s_0_0 <= 0\n r1: 1 x_0 >= 2.5\nBounds\n 0 <= x_0 <= 10\n" ++
      "Binaries\n s_0_0\nEnd\n" := by decide +kernel
  obtain ⟨file, read, columns, -, -, rows, -, binaries⟩ := read?_toLp denotable_gated
  exact ⟨file, text ▸ read, columns, rows, binaries⟩

end HardwareLinker.Milp
