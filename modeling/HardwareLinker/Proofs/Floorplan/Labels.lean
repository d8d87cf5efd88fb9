import Mathlib.Data.List.Nodup
import HardwareLinker.Proofs.Decimal.Numeral
import HardwareLinker.Proofs.Floorplan.Answer

/-!
Names in the model of a batch. The name of a variable or of a row is a stem with one or two
positions behind it, and underscores between them; no stem and no numeral holds an underscore, so
different stems or positions make different names.
-/

namespace HardwareLinker.Floorplan

open Milp

/-! ### Stems and positions -/

/-- A stem and positions with underscores between them. -/
def label (stem : String) (positions : List Nat) : String :=
  "_".intercalate (stem :: positions.map toString)

theorem toList_label (stem : String) (positions : List Nat) :
    (label stem positions).toList =
      ['_'].intercalate (stem.toList :: positions.map (Nat.toDigits 10)) := by
  rw [label, String.toList_intercalate, List.map_cons, List.map_map]
  congr 2
  exact List.map_congr_left fun n _ => Nat.toList_repr

/-- A stem in front of two positions that are joined already. -/
theorem label_pair (stem : String) (i j : Nat) :
    stem ++ "_" ++ s!"{i}_{j}" = label stem [i, j] := by
  refine String.toList_injective ?_
  rw [toList_label]
  simp [List.intercalate]
  rfl

theorem splitOn_label {stem : String} (plain : '_' ∉ stem.toList) (positions : List Nat) :
    (label stem positions).toList.splitOn '_' = stem.toList :: positions.map (Nat.toDigits 10) := by
  rw [toList_label]
  refine List.splitOn_intercalate '_' (List.forall_mem_cons.mpr ⟨plain, ?_⟩) (List.cons_ne_nil _ _)
  intro l hl hm
  obtain ⟨n, -, rfl⟩ := List.mem_map.mp hl
  exact underscore_notMem_toDigits n hm

theorem label_inj {stem stem' : String} {positions positions' : List Nat}
    (plain : '_' ∉ stem.toList) (plain' : '_' ∉ stem'.toList)
    (h : label stem positions = label stem' positions') :
    stem = stem' ∧ positions = positions' := by
  have same := splitOn_label plain positions
  rw [h, splitOn_label plain'] at same
  obtain ⟨stems, numerals⟩ := List.cons.inj same
  exact ⟨(String.toList_injective stems).symm,
    (List.map_injective_iff.mpr toDigits_injective numerals).symm⟩

/-! ### Families of names -/

/-- Different names, each made of a stem and positions that the family admits. -/
structure Labelled (family : String → List Nat → Prop) (names : List String) : Prop where
  distinct : names.Nodup
  form : ∀ name ∈ names, ∃ stem positions, '_' ∉ stem.toList ∧ family stem positions ∧
    name = label stem positions

namespace Labelled

variable {family family' : String → List Nat → Prop} {names names' : List String}

theorem nil : Labelled family [] := ⟨.nil, nofun⟩

theorem imp (h : Labelled family names)
    (wider : ∀ stem positions, family stem positions → family' stem positions) :
    Labelled family' names := by
  refine ⟨h.distinct, fun name hn => ?_⟩
  obtain ⟨stem, positions, plain, admitted, rfl⟩ := h.form name hn
  exact ⟨stem, positions, plain, wider _ _ admitted, rfl⟩

theorem sublist (h : Labelled family names) (sub : names'.Sublist names) : Labelled family names' :=
  ⟨h.distinct.sublist sub, fun name hn => h.form name (sub.subset hn)⟩

/-- Families without a stem and positions in common have no name in common. -/
theorem append (h : Labelled family names) (h' : Labelled family' names')
    (apart : ∀ stem positions, family stem positions → ¬ family' stem positions) :
    Labelled (fun stem positions => family stem positions ∨ family' stem positions)
      (names ++ names') := by
  refine ⟨h.distinct.append h'.distinct fun name hn hn' => ?_, fun name hn => ?_⟩
  · obtain ⟨stem, positions, plain, admitted, rfl⟩ := h.form name hn
    obtain ⟨stem', positions', plain', admitted', same⟩ := h'.form _ hn'
    obtain ⟨rfl, rfl⟩ := label_inj plain plain' same
    exact apart _ _ admitted admitted'
  · exact (List.mem_append.mp hn).elim
      (fun hn => (h.imp fun _ _ => .inl).form name hn)
      fun hn => (h'.imp fun _ _ => .inr).form name hn

/-- The same positions behind different stems. -/
theorem stems {stems : List String} (plain : ∀ stem ∈ stems, '_' ∉ stem.toList)
    (distinct : stems.Nodup) (positions : List Nat) :
    Labelled (fun stem found => stem ∈ stems ∧ found = positions)
      (stems.map (label · positions)) := by
  refine ⟨distinct.map_on fun stem hs stem' hs' same => ?_, fun name hn => ?_⟩
  · exact (label_inj (plain stem hs) (plain stem' hs') same).1
  · obtain ⟨stem, hs, rfl⟩ := List.mem_map.mp hn
    exact ⟨stem, positions, plain stem hs, ⟨hs, rfl⟩, rfl⟩

end Labelled

/-! ### Names of the parts -/

variable {α : Type} [Scalar α]

/-- Stems of the variables of a free group. -/
def groupVarStems : List String := ["s", "x", "y"]

/-- Stems of the rows of a free group. -/
def groupRowStems : List String := ["pick", "left", "right", "bottom", "top"]

/-- Stems of the variables of a pair. -/
def pairVarStems : List String := ["p", "q", "dx", "dy"]

/-- Stems of the rows of a pair. -/
def pairRowStems : List String :=
  ["sep0", "sep1", "sep2", "sep3", "in0", "in1", "in2", "in3", "dxp", "dxn", "dyp", "dyn"]

theorem freeGroup_varNames {chip : Size α} {i first : Nat} {g : AreaGroup α} :
    Labelled (fun stem positions => stem ∈ groupVarStems ∧ positions.head? = some i)
      ((freeGroup chip i first g).2.vars.map (·.name)) := by
  have names : (freeGroup chip i first g).2.vars.map (·.name) =
      (List.range g.dimension.choices.length).map (fun k => label "s" [i, k]) ++
        ["x", "y"].map (label · [i]) := by
    rw [freeGroup_vars, List.map_append, List.map_map, List.range_eq_range',
      ← List.zipIdx_map_snd 0 g.dimension.choices, List.map_map]
    rfl
  have selectors : Labelled (fun stem positions => stem = "s" ∧ positions.head? = some i)
      ((List.range g.dimension.choices.length).map fun k => label "s" [i, k]) := by
    have plain : '_' ∉ "s".toList := by decide
    refine ⟨List.nodup_range.map fun k l same => ?_, fun name hn => ?_⟩
    · simpa using (label_inj plain plain same).2
    · obtain ⟨k, -, rfl⟩ := List.mem_map.mp hn
      exact ⟨"s", [i, k], plain, ⟨rfl, rfl⟩, rfl⟩
  rw [names]
  refine (selectors.append (.stems (by decide) (by decide) [i]) ?_).imp ?_
  · rintro stem positions ⟨rfl, -⟩ ⟨found, -⟩
    simp at found
  · rintro stem positions (⟨rfl, head⟩ | ⟨found, rfl⟩)
    · exact ⟨List.mem_cons_self, head⟩
    · exact ⟨List.mem_cons_of_mem _ found, rfl⟩

theorem freeGroup_rowNames {chip : Size α} {i first : Nat} {g : AreaGroup α} :
    Labelled (fun stem positions => stem ∈ groupRowStems ∧ positions.head? = some i)
      ((freeGroup chip i first g).2.rows.map (·.name)) := by
  have names :
      (freeGroup chip i first g).2.rows.map (·.name) = groupRowStems.map (label · [i]) := rfl
  rw [names]
  refine (Labelled.stems (by decide) (by decide) [i]).imp ?_
  rintro stem positions ⟨found, rfl⟩
  exact ⟨found, rfl⟩

/-- A pair adds nothing, or what nests or separates it and perhaps its distance. -/
theorem relate_cases (far : α) (traffic : TrafficTable α) (settings : PlacementSettings α)
    (first : Nat) (a b : Geometry α × Nat) :
    relate far traffic settings first a b = {} ∨
    ∃ block, (block = containChild s!"{a.2}_{b.2}" b.1 a.1 ∨
        block = containChild s!"{a.2}_{b.2}" a.1 b.1 ∨
        block = separate s!"{a.2}_{b.2}" first a.1 b.1 far) ∧
      (relate far traffic settings first a b = block ∨
        ∃ weight, relate far traffic settings first a b = block.append
          (distance s!"{a.2}_{b.2}" (first + block.vars.length) a.1 b.1 weight far)) := by
  unfold relate
  dsimp only
  split
  · exact .inl rfl
  · refine .inr ?_
    split
    · refine ⟨_, .inl rfl, ?_⟩
      split
      · exact .inr ⟨_, rfl⟩
      · exact .inl rfl
    · split
      · refine ⟨_, .inr (.inl rfl), ?_⟩
        split
        · exact .inr ⟨_, rfl⟩
        · exact .inl rfl
      · refine ⟨_, .inr (.inr rfl), ?_⟩
        split
        · exact .inr ⟨_, rfl⟩
        · exact .inl rfl

/-- The names of a part with two positions. -/
structure Block.Tagged (b : Block α) (varStems rowStems : List String) (i j : Nat) : Prop where
  vars : b.vars.map (·.name) = varStems.map (label · [i, j])
  rows : b.rows.map (·.name) = rowStems.map (label · [i, j])

section Tagged

variable {b c : Block α} {varStems rowStems varStems' rowStems' : List String} {i j first : Nat}

omit [Scalar α] in
/-- The names as they are written, with the positions joined already. -/
theorem Block.tagged_of_joined
    (vars : b.vars.map (·.name) = varStems.map (· ++ "_" ++ s!"{i}_{j}"))
    (rows : b.rows.map (·.name) = rowStems.map (· ++ "_" ++ s!"{i}_{j}")) :
    b.Tagged varStems rowStems i j :=
  ⟨vars.trans (List.map_congr_left fun stem _ => label_pair stem i j),
    rows.trans (List.map_congr_left fun stem _ => label_pair stem i j)⟩

omit [Scalar α] in
theorem Block.Tagged.append (hb : b.Tagged varStems rowStems i j)
    (hc : c.Tagged varStems' rowStems' i j) :
    (b.append c).Tagged (varStems ++ varStems') (rowStems ++ rowStems') i j := by
  constructor
  · rw [Block.append, List.map_append, hb.vars, hc.vars, List.map_append]
  · rw [Block.append, List.map_append, hb.rows, hc.rows, List.map_append]

theorem containChild_tagged (parent child : Geometry α) :
    (containChild s!"{i}_{j}" parent child).Tagged [] ["in0", "in1", "in2", "in3"] i j :=
  Block.tagged_of_joined rfl rfl

theorem separate_tagged (a b : Geometry α) (far : α) :
    (separate s!"{i}_{j}" first a b far).Tagged ["p", "q"] ["sep0", "sep1", "sep2", "sep3"] i j :=
  Block.tagged_of_joined rfl rfl

theorem distance_tagged (a b : Geometry α) (weight far : α) :
    (distance s!"{i}_{j}" first a b weight far).Tagged ["dx", "dy"]
      ["dxp", "dxn", "dyp", "dyn"] i j :=
  Block.tagged_of_joined rfl rfl

end Tagged

/-- What is said of a pair has names of its family only. -/
theorem relate_tagged (far : α) (traffic : TrafficTable α) (settings : PlacementSettings α)
    (first : Nat) (a b : Geometry α × Nat) :
    ∃ varStems rowStems, varStems.Sublist pairVarStems ∧ rowStems.Sublist pairRowStems ∧
      (relate far traffic settings first a b).Tagged varStems rowStems a.2 b.2 := by
  rcases relate_cases far traffic settings first a b with none | ⟨block, kind, shape⟩
  · rw [none]
    exact ⟨[], [], List.nil_sublist _, List.nil_sublist _, rfl, rfl⟩
  obtain ⟨varStems, rowStems, which, tagged⟩ : ∃ varStems rowStems,
      (varStems = [] ∧ rowStems = ["in0", "in1", "in2", "in3"] ∨
        varStems = ["p", "q"] ∧ rowStems = ["sep0", "sep1", "sep2", "sep3"]) ∧
      block.Tagged varStems rowStems a.2 b.2 := by
    rcases kind with rfl | rfl | rfl
    · exact ⟨_, _, .inl ⟨rfl, rfl⟩, containChild_tagged b.1 a.1⟩
    · exact ⟨_, _, .inl ⟨rfl, rfl⟩, containChild_tagged a.1 b.1⟩
    · exact ⟨_, _, .inr ⟨rfl, rfl⟩, separate_tagged a.1 b.1 far⟩
  rcases shape with shape | ⟨weight, shape⟩
  · rw [shape]
    refine ⟨varStems, rowStems, ?_, ?_, tagged⟩
    · rcases which with ⟨rfl, -⟩ | ⟨rfl, -⟩ <;> decide
    · rcases which with ⟨-, rfl⟩ | ⟨-, rfl⟩ <;> decide
  · rw [shape]
    refine ⟨_, _, ?_, ?_, tagged.append (distance_tagged a.1 b.1 weight far)⟩
    · rcases which with ⟨rfl, -⟩ | ⟨rfl, -⟩ <;> decide
    · rcases which with ⟨-, rfl⟩ | ⟨-, rfl⟩ <;> decide

theorem relate_labelled (far : α) (traffic : TrafficTable α) (settings : PlacementSettings α)
    (first : Nat) (a b : Geometry α × Nat) :
    Labelled (fun stem positions => stem ∈ pairVarStems ∧ positions = [a.2, b.2])
      ((relate far traffic settings first a b).vars.map (·.name)) ∧
    Labelled (fun stem positions => stem ∈ pairRowStems ∧ positions = [a.2, b.2])
      ((relate far traffic settings first a b).rows.map (·.name)) := by
  obtain ⟨varStems, rowStems, vars, rows, tagged⟩ := relate_tagged far traffic settings first a b
  rw [tagged.vars, tagged.rows]
  exact ⟨(Labelled.stems (by decide) (by decide) _).sublist (vars.map _),
    (Labelled.stems (by decide) (by decide) _).sublist (rows.map _)⟩

end HardwareLinker.Floorplan
