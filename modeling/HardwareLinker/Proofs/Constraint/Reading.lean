import HardwareLinker.Constraint.File
import HardwareLinker.Proofs.Except
import HardwareLinker.Proofs.NameMap

/-!
What a constraint file says, name by name. What is known of a name after a statement depends on the
statement and on what was known of that name before; a file is accepted if no name and no chip is
refused, and the set that it gives holds under each name what the statements say of it.
-/

namespace HardwareLinker.Constraint

variable {α : Type} [Scalar α]

/-! ### One name -/

namespace Statement

/-- The group that a statement is about; a nesting is about the child. -/
def subject? : Statement α → Option String
  | .chip _ => none
  | .declare name _ | .nest name _ | .locate name _ _ | .size name _ | .area name _
  | .corner name _ _ _ | .attribute name _ _ => some name

end Statement

/-- What is known of a name: the group that has it and the two corners. -/
structure Entry (α : Type) where
  group : Option (AreaGroup α) := none
  lower : Option (α × α) := none
  upper : Option (α × α) := none

namespace Entry

/-- Changes the group, which must be declared. -/
def change (f : AreaGroup α → AreaGroup α) (e : Entry α) : Option (Entry α) :=
  e.group.map fun g => { e with group := some (f g) }

/-- Nests the group, which must not be nested yet. -/
def nest (parent : String) (e : Entry α) : Option (Entry α) :=
  e.group.bind fun g =>
    if g.parent.isSome then none else some { e with group := some { g with parent := some parent } }

/-- What a statement makes of the name that it is about. -/
def settle (e : Entry α) : Statement α → Option (Entry α)
  | .chip _ => some e
  | .declare name path =>
    if e.group.isSome then none
    else some { e with group := some { name, sourcePath := path, area := 0 } }
  | .nest child parent => if child = parent then none else e.nest parent
  | .locate _ x y => e.change fun g => { g with x := some x, y := some y }
  | .size _ size => e.change fun g => { g with dimension := .fixed size }
  | .area _ area => e.change fun g => { g with area }
  | .corner _ upper x y =>
    if e.group.isSome then
      some (if upper then { e with upper := some (x, y) } else { e with lower := some (x, y) })
    else none
  | .attribute _ key value =>
    e.change fun g => { g with attributes := g.attributes.insert key value }

/-- What is known of a name after one more statement; nothing if the statement is refused for it. -/
def after (name : String) (e : Entry α) (s : Statement α) : Option (Entry α) :=
  if s.subject? = some name then e.settle s
  else
    match s with
    | .nest child parent => if parent = name then e.change (Draft.addChild child) else some e
    | _ => some e

/-- The group in the end, placed between its corners if it has both; a single corner is refused. -/
def finish (e : Entry α) : Option (Option (AreaGroup α)) :=
  match e.lower, e.upper with
  | some p, some q =>
    if q.1 ≤ p.1 ∨ q.2 ≤ p.2 then none
    else some (e.group.map fun g =>
      g.place ((p.1 + q.1) / 2.0) ((p.2 + q.2) / 2.0) ⟨q.1 - p.1, q.2 - p.2⟩)
  | none, none => some e.group
  | _, _ => none

end Entry

/-- The chip after one more statement; nothing if the statement is refused for it. -/
def chipAfter (chip : Option (Size α)) : Statement α → Option (Option (Size α))
  | .chip size =>
    if chip.isSome ∨ size.width ≤ 0 ∨ size.height ≤ 0 then none else some (some size)
  | _ => some chip

/-! ### One statement -/

/-- What a set with corners knows of a name. -/
def entryOf (set : ConstraintSet α) (corners : Option (Corners α)) (name : String) : Entry α where
  group := set.groups.find? name
  lower := (corners.bind (·.lower)).map fun c => (c.x, c.y)
  upper := (corners.bind (·.upper)).map fun c => (c.x, c.y)

namespace Draft

variable {d d' : Draft α} {line : Nat} {s : Statement α}

def entry (d : Draft α) (name : String) : Entry α := entryOf d.declared (d.corners.find? name) name

/-- The second draft is the first one with the statement taken in. -/
structure Takes (d d' : Draft α) (s : Statement α) : Prop where
  chip : chipAfter d.declared.chip s = some d'.declared.chip
  entry : ∀ name, (d.entry name).after name s = some (d'.entry name)

/-- The statement is taken in, or else it is refused for a name or for the chip. -/
def Agrees (d : Draft α) (s : Statement α) : Except Fault (Draft α) → Prop
  | .ok d' => d.Takes d' s
  | .error _ => chipAfter d.declared.chip s = none ∨ ∃ name, (d.entry name).after name s = none

theorem agrees_setChip (size : Size α) : d.Agrees (.chip size) (d.setChip line size) := by
  have untouched (name : String) (chip : Option (Size α)) :
      (d.entry name).after name (.chip size) =
        some ({ d with declared := { d.declared with chip } : Draft α }.entry name) := rfl
  unfold setChip
  split
  case isTrue twice => exact .inl (if_pos (.inl twice))
  case isFalse once =>
    split
    case isTrue empty => exact .inl (if_pos (.inr (by simpa using empty)))
    case isFalse proper =>
      exact ⟨if_neg (by simpa using ⟨by simpa using once, by simpa using proper⟩),
        fun name => untouched name _⟩

theorem agrees_update (name : String) {f : AreaGroup α → AreaGroup α}
    (chip : ∀ chip, chipAfter chip s = some chip)
    (about : ∀ n (e : Entry α), e.after n s = if n = name then e.change f else some e) :
    d.Agrees s (onLine line (d.update name f)) := by
  unfold update
  split
  case isTrue declared =>
    refine ⟨chip _, fun n => ?_⟩
    rw [NameMap.contains_eq_isSome, Option.isSome_iff_exists] at declared
    obtain ⟨g, found⟩ := declared
    rw [about]
    simp only [entry, entryOf, Entry.change, NameMap.find?_modify]
    split
    · next same => simp [same, found]
    · rfl
  case isFalse undeclared =>
    rw [NameMap.contains_eq_isSome, Option.not_isSome_iff_eq_none] at undeclared
    refine .inr ⟨name, ?_⟩
    rw [about, if_pos rfl, Entry.change, entry, entryOf, undeclared]
    rfl

theorem agrees_declare (name : String) (path : Option String) :
    d.Agrees (.declare name path) (onLine line (d.declare name path)) := by
  unfold declare
  rw [NameMap.contains_eq_isSome]
  split
  case isTrue declared =>
    refine .inr ⟨name, ?_⟩
    simp [Entry.after, Statement.subject?, Entry.settle, entry, entryOf, declared]
  case isFalse undeclared =>
    refine ⟨rfl, fun n => ?_⟩
    rw [Option.not_isSome_iff_eq_none] at undeclared
    simp only [Entry.after, Statement.subject?, Entry.settle, entry, entryOf, NameMap.find?_insert,
      Option.some.injEq]
    by_cases same : name = n
    · subst same
      simp [undeclared]
    · simp [same, Ne.symm same]

theorem agrees_setCorner (name : String) (upper : Bool) (x y : α) :
    d.Agrees (.corner name upper x y) (onLine line (d.setCorner name upper ⟨x, y, line⟩)) := by
  unfold setCorner
  rw [NameMap.contains_eq_isSome]
  split
  case isTrue declared =>
    refine ⟨rfl, fun n => ?_⟩
    simp only [Entry.after, Statement.subject?, Entry.settle, entry, entryOf, NameMap.find?_insert,
      Option.some.injEq]
    by_cases same : name = n
    · subst same
      cases upper <;> cases d.corners.find? name <;> simp [declared]
    · simp [same, Ne.symm same]
  case isFalse undeclared =>
    refine .inr ⟨name, ?_⟩
    simp [Entry.after, Statement.subject?, Entry.settle, entry, entryOf, undeclared]

theorem agrees_nest (child parent : String) :
    d.Agrees (.nest child parent) (d.nest line child parent) := by
  have atChild : (d.entry child).after child (.nest child parent) =
      if child = parent then none else (d.entry child).nest parent := if_pos rfl
  unfold nest
  dsimp only
  split
  case h_1 undeclared =>
    refine .inr ⟨child, ?_⟩
    rw [atChild]
    simp [Entry.nest, entry, entryOf, undeclared]
  case h_2 g found =>
    rw [NameMap.contains_eq_isSome]
    split
    case isTrue undeclared =>
      rw [Bool.not_eq_true', Option.isSome_eq_false_iff, Option.isNone_iff_eq_none] at undeclared
      have different : child ≠ parent := by
        rintro rfl
        simp [found] at undeclared
      refine .inr ⟨parent, ?_⟩
      simp [Entry.after, Statement.subject?, different, Entry.change, entry, entryOf, undeclared]
    case isFalse declared =>
      split
      case isTrue same => exact .inr ⟨child, by rw [atChild, if_pos (by simpa using same)]⟩
      case isFalse different =>
        have different : child ≠ parent := by simpa using different
        split
        case h_1 existing nested =>
          refine .inr ⟨child, ?_⟩
          rw [atChild]
          simp [Entry.nest, entry, entryOf, found, nested]
        case h_2 free =>
          refine ⟨rfl, fun n => ?_⟩
          rw [Bool.not_eq_true', Bool.not_eq_false, Option.isSome_iff_exists] at declared
          obtain ⟨h, hostFound⟩ := declared
          simp only [Entry.after, Statement.subject?, Entry.settle, Entry.nest, Entry.change, entry,
            entryOf, NameMap.find?_modify, Option.some.injEq]
          by_cases isChild : child = n
          · subst isChild
            simp [different, found, free]
          · by_cases isParent : parent = n
            · subst isParent
              simp [isChild, hostFound, Ne.symm isChild]
            · simp [isChild, isParent, Ne.symm isChild, Ne.symm isParent]

/-- A statement is taken in precisely if no name and no chip is refused. -/
theorem agrees_apply (d : Draft α) (line : Nat) (s : Statement α) :
    d.Agrees s (d.apply line s) := by
  cases s with
  | chip size => exact agrees_setChip size
  | declare name path => exact agrees_declare name path
  | nest child parent => exact agrees_nest child parent
  | corner name upper x y => exact agrees_setCorner name upper x y
  | locate name | size name | area name | «attribute» name =>
      refine agrees_update name (fun _ => rfl) fun n e => ?_
      simp only [Entry.after, Statement.subject?, Entry.settle, Option.some.injEq, eq_comm]

theorem takes_of_apply (run : d.apply line s = .ok d') : d.Takes d' s := by
  have agrees := d.agrees_apply line s
  rwa [run] at agrees

theorem apply_ok (chip : (chipAfter d.declared.chip s).isSome = true)
    (entries : ∀ name, ((d.entry name).after name s).isSome = true) :
    ∃ d', d.apply line s = .ok d' := by
  have agrees := d.agrees_apply line s
  cases run : d.apply line s with
  | ok d' => exact ⟨d', rfl⟩
  | error fault =>
      rw [run] at agrees
      rcases agrees with refused | ⟨name, refused⟩
      · simp [refused] at chip
      · simpa [refused] using entries name

/-! ### All statements -/

/-- The texts read as these statements. -/
def Reads (texts : List (Nat × List Char)) (ss : List (Statement α)) : Prop :=
  List.Forall₂ (fun e s => Statement.ofList e.2 = .ok s) texts ss

theorem read_eq_ok {e : Nat × List Char} :
    d.read e = .ok d' ↔ ∃ s, Statement.ofList e.2 = .ok s ∧ d.apply e.1 s = .ok d' := by
  have lifted {β : Type} {x : Except StatementFault β} {b : β} :
      onLine e.1 x = .ok b ↔ x = .ok b := by
    cases x <;> simp [onLine]
  simp only [read, bind_eq_ok_iff, lifted]

/-- Drafts that take in statements one after another take them in name by name. -/
theorem takes_of_foldlM {texts : List (Nat × List Char)} (run : texts.foldlM read d = .ok d') :
    ∃ ss, Reads texts ss ∧ ss.foldlM chipAfter d.declared.chip = some d'.declared.chip ∧
      ∀ name, ss.foldlM (Entry.after name) (d.entry name) = some (d'.entry name) := by
  induction texts generalizing d with
  | nil =>
      cases run
      exact ⟨[], .nil, rfl, fun _ => rfl⟩
  | cons e texts ih =>
      rw [List.foldlM_cons] at run
      obtain ⟨d₁, head, tail⟩ := bind_eq_ok_iff.mp run
      obtain ⟨s, hs, applied⟩ := read_eq_ok.mp head
      obtain ⟨ss, reads, chip, entries⟩ := ih tail
      have takes := takes_of_apply applied
      refine ⟨s :: ss, .cons hs reads, ?_, fun name => ?_⟩
      · rw [List.foldlM_cons, takes.chip]
        exact chip
      · rw [List.foldlM_cons, takes.entry name]
        exact entries name

theorem foldlM_read_ok {texts : List (Nat × List Char)} {ss : List (Statement α)}
    (reads : Reads texts ss) (chip : (ss.foldlM chipAfter d.declared.chip).isSome = true)
    (entries : ∀ name, (ss.foldlM (Entry.after name) (d.entry name)).isSome = true) :
    ∃ d', texts.foldlM read d = .ok d' ∧
      ss.foldlM chipAfter d.declared.chip = some d'.declared.chip ∧
      ∀ name, ss.foldlM (Entry.after name) (d.entry name) = some (d'.entry name) := by
  induction reads generalizing d with
  | nil => exact ⟨d, rfl, rfl, fun _ => rfl⟩
  | @cons e s texts ss hs _ ih =>
      simp only [List.foldlM_cons] at chip entries
      obtain ⟨d₁, applied⟩ : ∃ d₁, d.apply e.1 s = .ok d₁ :=
        apply_ok (Option.isSome_of_isSome_bind chip)
          fun name => Option.isSome_of_isSome_bind (entries name)
      have takes := takes_of_apply applied
      obtain ⟨d', run, chip', entries'⟩ := ih (d := d₁) (by simpa [takes.chip] using chip)
        fun name => by simpa [takes.entry name] using entries name
      refine ⟨d', ?_, ?_, fun name => ?_⟩
      · rw [List.foldlM_cons, read_eq_ok.mpr ⟨s, hs, applied⟩]
        exact run
      · rw [List.foldlM_cons, takes.chip]
        exact chip'
      · rw [List.foldlM_cons, takes.entry name]
        exact entries' name

/-! ### Corners -/

variable {set set' : ConstraintSet α}

/-- Corners are resolved for one name, or else refused for it. -/
theorem resolve_spec (set : ConstraintSet α) (name : String) (corners : Corners α) :
    match resolve set (name, corners) with
    | .ok set' => set'.chip = set.chip ∧
        (∀ n, n ≠ name → set'.groups.find? n = set.groups.find? n) ∧
        (entryOf set (some corners) name).finish = some (set'.groups.find? name)
    | .error _ => (entryOf set (some corners) name).finish = none := by
  obtain ⟨lower, upper⟩ := corners
  cases lower with
  | none => cases upper <;> simp [resolve, entryOf, Entry.finish]
  | some p =>
      cases upper with
      | none => simp [resolve, entryOf, Entry.finish]
      | some q =>
          by_cases swapped : q.x ≤ p.x ∨ q.y ≤ p.y
          · simp [resolve, entryOf, Entry.finish, swapped]
          · simp only [resolve, entryOf, Entry.finish, Option.bind_some, Option.map_some, swapped,
              Bool.or_eq_true, decide_eq_true_eq, if_false, NameMap.find?_modify, if_true]
            exact ⟨trivial, fun n other => if_neg other, trivial⟩

/-- What a list binds to a name. -/
def lookUp (l : List (String × Corners α)) (name : String) : Option (Corners α) :=
  (l.find? fun e => e.1 == name).map Prod.snd

/-- Corners of different names are resolved name by name. -/
theorem foldlM_resolve_spec (l : List (String × Corners α)) (distinct : l.Pairwise (·.1 ≠ ·.1))
    (set : ConstraintSet α) :
    match l.foldlM resolve set with
    | .ok set' => set'.chip = set.chip ∧
        ∀ name, (entryOf set (lookUp l name) name).finish = some (set'.groups.find? name)
    | .error _ => ∃ name, (entryOf set (lookUp l name) name).finish = none := by
  induction l generalizing set with
  | nil => exact ⟨rfl, fun _ => rfl⟩
  | cons e l ih =>
      obtain ⟨key, corners⟩ := e
      obtain ⟨fresh, distinct⟩ := List.pairwise_cons.mp distinct
      have here : lookUp ((key, corners) :: l) key = some corners := by simp [lookUp]
      have elsewhere {n : String} (other : n ≠ key) :
          lookUp ((key, corners) :: l) n = lookUp l n := by
        simp [lookUp, Ne.symm other]
      have later : lookUp l key = none := by
        simpa [lookUp] using fun n c mem same => fresh (n, c) mem same.symm
      have spec := resolve_spec set key corners
      rw [List.foldlM_cons]
      cases head : resolve set (key, corners) with
      | error fault =>
          rw [head] at spec
          exact ⟨key, here ▸ spec⟩
      | ok set₁ =>
          rw [head] at spec
          obtain ⟨chip, others, own⟩ := spec
          have away {n : String} (other : n ≠ key) :
              entryOf set (lookUp ((key, corners) :: l) n) n = entryOf set₁ (lookUp l n) n := by
            rw [elsewhere other, entryOf, entryOf, others n other]
          have rest := ih distinct set₁
          change match l.foldlM resolve set₁ with
            | .ok set' => set'.chip = set.chip ∧ ∀ name,
                (entryOf set (lookUp ((key, corners) :: l) name) name).finish =
                  some (set'.groups.find? name)
            | .error _ => ∃ name,
                (entryOf set (lookUp ((key, corners) :: l) name) name).finish = none
          cases tail : l.foldlM resolve set₁ with
          | error fault =>
              rw [tail] at rest
              obtain ⟨name, refused⟩ := rest
              by_cases same : name = key
              · subst same
                rw [later] at refused
                cases refused
              · exact ⟨name, away same ▸ refused⟩
          | ok set' =>
              rw [tail] at rest
              obtain ⟨chip', entries⟩ := rest
              refine ⟨chip'.trans chip, fun name => ?_⟩
              by_cases same : name = key
              · subst same
                have kept := entries name
                rw [later] at kept
                rw [here, own]
                exact kept
              · rw [away same]
                exact entries name

end Draft

/-! ### A whole file -/

/-- The set is what the statements say: its chip is declared once, under each name is the group that
they make of it, and no nested group has children. -/
structure Describes (ss : List (Statement α)) (set : ConstraintSet α) : Prop where
  chip : ss.foldlM chipAfter none = some set.chip
  groups :
    ∀ name, (ss.foldlM (Entry.after name) {}).bind Entry.finish = some (set.groups.find? name)
  shallow : nestedDeep? set = none

/-- A file gives a set precisely if its texts read as statements that describe it. -/
theorem ofText_eq_ok_iff {source : String} {set : ConstraintSet α} :
    ConstraintSet.ofText source = .ok set ↔
      ∃ ss, Draft.Reads (statements source.toList) ss ∧ Describes ss set := by
  have resolved (d : Draft α) : match d.corners.entries.foldlM Draft.resolve d.declared with
      | .ok set' => set'.chip = d.declared.chip ∧
          ∀ name, (d.entry name).finish = some (set'.groups.find? name)
      | .error _ => ∃ name, (d.entry name).finish = none := by
    refine Draft.foldlM_resolve_spec _ (d.corners.ascending.imp ?_) _
    intro a b less same
    exact String.lt_irrefl _ (same ▸ less)
  unfold ConstraintSet.ofText
  constructor
  · intro read
    obtain ⟨d, run, read⟩ := bind_eq_ok_iff.mp read
    obtain ⟨set', finished, read⟩ := bind_eq_ok_iff.mp read
    obtain ⟨ss, reads, chip, entries⟩ := Draft.takes_of_foldlM run
    have spec := resolved d
    rw [finished] at spec
    split at read
    · cases read
    · next shallow =>
      cases read
      refine ⟨ss, reads, chip.trans (congrArg some spec.1.symm), fun name => ?_, shallow⟩
      have known : ss.foldlM (Entry.after name) {} = some (d.entry name) := entries name
      rw [known]
      exact spec.2 name
  · rintro ⟨ss, reads, chip, groups, shallow⟩
    obtain ⟨d, run, chip', entries⟩ := Draft.foldlM_read_ok (d := {}) reads
      (Option.isSome_of_eq_some chip)
      fun name => Option.isSome_of_isSome_bind (Option.isSome_of_eq_some (groups name))
    have finish (name : String) : (d.entry name).finish = some (set.groups.find? name) := by
      have known : ss.foldlM (Entry.after name) {} = some (d.entry name) := entries name
      have said := groups name
      rwa [known] at said
    have spec := resolved d
    cases finished : d.corners.entries.foldlM Draft.resolve d.declared with
    | error fault =>
        rw [finished] at spec
        obtain ⟨name, refused⟩ := spec
        cases refused.symm.trans (finish name)
    | ok set' =>
        rw [finished] at spec
        obtain ⟨sameChip, sameGroups⟩ := spec
        obtain rfl : set' = set := by
          obtain ⟨chip₁, groups₁⟩ := set'
          obtain ⟨chip₂, groups₂⟩ := set
          have sameChip : chip₁ = chip₂ := sameChip.trans (Option.some.inj (chip'.symm.trans chip))
          have sameGroups : groups₁ = groups₂ := NameMap.ext_find? fun name =>
            Option.some.inj ((sameGroups name).symm.trans (finish name))
          rw [sameChip, sameGroups]
        refine bind_eq_ok_iff.mpr ⟨d, run, bind_eq_ok_iff.mpr ⟨set', finished, ?_⟩⟩
        rw [shallow]
        rfl

end HardwareLinker.Constraint
