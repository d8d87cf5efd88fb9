import Mathlib.Data.List.Perm.Basic
import HardwareLinker.Proofs.Constraint.Hierarchy
import HardwareLinker.Proofs.Constraint.Joined

/-!
The order of the statements of a constraint file. What a file says of a group depends on its
declaration, on the order of the statements that set something on the group, and on which groups are
nested in it, but not on when these are; so statements may be moved as long as declarations come
first and the settings of each group keep their order.
-/

namespace HardwareLinker.Constraint

variable {α : Type}

/-! ### Rearrangements -/

deriving instance DecidableEq for Statement

namespace Statement

/-- The group that a statement declares. -/
def declares? : Statement α → Option String
  | .declare name _ => some name
  | _ => none

/-- The declared group that a statement sets something on; a nesting sets the parent of its
child. -/
def sets? : Statement α → Option String
  | .declare .. => none
  | s => s.subject?

/-- The group that a statement nests another one in. -/
def hosts? : Statement α → Option String
  | .nest _ parent => some parent
  | _ => none

/-- The statement names the group, and does not declare it. -/
def Names (name : String) (s : Statement α) : Prop := s.sets? = some name ∨ s.hosts? = some name

/-- The statement says something of the group. -/
def Concerns (name : String) (s : Statement α) : Prop := s.declares? = some name ∨ s.Names name

theorem declares_of_sets {s : Statement α} {name : String} (sets : s.sets? = some name) :
    s.declares? = none := by
  cases s with
  | declare n path => cases sets
  | _ => rfl

end Statement

/-- The same statements in an order that keeps declarations first and the settings of each group as
they follow each other. -/
structure Rearranged (ss ss' : List (Statement α)) : Prop where
  perm : ss'.Perm ss
  declared : ss'.Pairwise fun s t => ∀ name, t.declares? = some name → ¬ s.Names name
  order : ∀ name, ss'.filter (·.sets? = some name) = ss.filter (·.sets? = some name)

/-- Steps that change nothing may be left out. -/
theorem foldlM_filter_of_keeps {σ β : Type} {f : σ → β → Option σ} {p : β → Bool}
    (keeps : ∀ s b, p b = false → f s b = some s) (l : List β) (s : σ) :
    l.foldlM f s = (l.filter p).foldlM f s := by
  induction l generalizing s with
  | nil => rfl
  | cons b l ih =>
      cases kept : p b with
      | true =>
          rw [List.filter_cons_of_pos kept, List.foldlM_cons, List.foldlM_cons]
          exact congrArg (f s b >>= ·) (funext ih)
      | false =>
          rw [List.filter_cons_of_neg (by simp [kept]), List.foldlM_cons, keeps s b kept]
          exact ih s

theorem eq_of_perm_of_length_le_one {β : Type} {l l' : List β} (perm : l'.Perm l)
    (short : l.length ≤ 1) : l' = l := by
  match l, short with
  | [], _ => exact perm.eq_nil
  | [b], _ => exact List.perm_singleton.mp perm

/-- Names in order, with one more. -/
def withName (names : List String) (name : String) : List String :=
  (names ++ [name]).mergeSort (· ≤ ·)

theorem withName_comm (names : List String) (a b : String) :
    withName (withName names a) b = withName (withName names b) a := by
  have sorted (a b : String) : (withName (withName names a) b).Perm (names ++ [a] ++ [b]) :=
    (List.mergeSort_perm ..).trans ((List.mergeSort_perm ..).append_right _)
  have swapped : (names ++ [a] ++ [b]).Perm (names ++ [b] ++ [a]) := by
    rw [List.append_assoc, List.append_assoc]
    exact (List.Perm.swap b a []).append_left _
  exact List.Perm.eq_of_pairwise (fun _ _ _ _ => String.le_antisymm) (pairwise_mergeSort _)
    (pairwise_mergeSort _) ((sorted a b).trans (swapped.trans (sorted b a).symm))

variable [Scalar α] {ss ss' : List (Statement α)} {s : Statement α} {name : String}

/-! ### The chip -/

/-- After the chip no other one is taken. -/
theorem length_le_one_of_foldlM {chip chip' : Option (Size α)} (chips : ∀ s ∈ ss, s.subject? = none)
    (run : ss.foldlM chipAfter chip = some chip') : ss.length ≤ 1 := by
  have taken {s : Statement α} {chip chip' : Option (Size α)} (isChip : s.subject? = none)
      (run : chipAfter chip s = some chip') : chip = none ∧ chip'.isSome := by
    cases s with
    | chip size =>
        simp only [chipAfter, Option.ite_none_left_eq_some, not_or] at run
        obtain ⟨⟨free, -⟩, taken⟩ := run
        cases taken
        exact ⟨by simpa using free, rfl⟩
    | _ => cases isChip
  match ss with
  | [] | [_] => simp
  | first :: second :: rest =>
      obtain ⟨hfirst, chips⟩ := List.forall_mem_cons.mp chips
      obtain ⟨hsecond, -⟩ := List.forall_mem_cons.mp chips
      rw [List.foldlM_cons] at run
      obtain ⟨chip₁, run₁, run⟩ := Option.bind_eq_some_iff.mp run
      rw [List.foldlM_cons] at run
      obtain ⟨chip₂, run₂, -⟩ := Option.bind_eq_some_iff.mp run
      have set := (taken hfirst run₁).2
      rw [(taken hsecond run₂).1] at set
      cases set

theorem Rearranged.chip (rearranged : Rearranged ss ss') {chip : Option (Size α)}
    (run : ss.foldlM chipAfter none = some chip) : ss'.foldlM chipAfter none = some chip := by
  have keeps (chip : Option (Size α)) (s : Statement α) (other : s.subject?.isNone = false) :
      chipAfter chip s = some chip := by
    cases s <;> first | rfl | cases other
  rw [foldlM_filter_of_keeps keeps] at run ⊢
  have chips : ∀ s ∈ ss.filter (·.subject?.isNone), s.subject? = none := fun s mem =>
    Option.isNone_iff_eq_none.mp (List.mem_filter.mp mem).2
  rwa [eq_of_perm_of_length_le_one (rearranged.perm.filter _) (length_le_one_of_foldlM chips run)]

/-! ### One group -/

namespace Entry

variable {e e' : Entry α}

/-- Nests the children in the group. -/
def adopt (children : List String) (e : Entry α) : Entry α :=
  { e with group := e.group.map fun g => { g with children := children.foldl withName g.children } }

omit [Scalar α] in
theorem adopt_nil (e : Entry α) : e.adopt [] = e := by
  rcases e with ⟨_ | g, lower, upper⟩ <;> rfl

omit [Scalar α] in
theorem adopt_append (front back : List String) (e : Entry α) :
    e.adopt (front ++ back) = (e.adopt front).adopt back := by
  rcases e with ⟨_ | g, lower, upper⟩
  · rfl
  · simp [adopt]

omit [Scalar α] in
theorem adopt_perm {children children' : List String} (perm : children.Perm children')
    (e : Entry α) : e.adopt children = e.adopt children' := by
  have same (names : List String) :=
    perm.foldl_eq' (f := withName) (fun a _ b _ names => withName_comm names a b) names
  simp only [adopt, same]

/-- What is set on a group does not depend on its children, nor do these on what is set. -/
theorem settle_adopt (children : List String) (later : s.declares? = none) :
    (e.adopt children).settle s = (e.settle s).map (·.adopt children) := by
  rcases e with ⟨_ | g, lower, upper⟩ <;> cases s
  case none.nest c p =>
    by_cases same : c = p <;> simp [settle, nest, adopt, same]
  case some.nest c p =>
    by_cases same : c = p
    · simp [settle, same]
    · cases free : g.parent <;> simp [settle, nest, adopt, same, free]
  case none.declare | some.declare => cases later
  case some.corner n upper x y => cases upper <;> rfl
  all_goals rfl

theorem foldlM_settle_adopt (children : List String) (later : ∀ s ∈ ss, s.declares? = none) :
    ss.foldlM settle (e.adopt children) = (ss.foldlM settle e).map (·.adopt children) := by
  induction ss generalizing e with
  | nil => rfl
  | cons s ss ih =>
      obtain ⟨here, later⟩ := List.forall_mem_cons.mp later
      rw [List.foldlM_cons, List.foldlM_cons, settle_adopt children here]
      cases e.settle s with
      | none => rfl
      | some e₁ => exact ih later

theorem declared_settle (later : s.declares? = none) (declared : e.group.isSome)
    (taken : e.settle s = some e') : e'.group.isSome := by
  obtain ⟨g, found⟩ := Option.isSome_iff_exists.mp declared
  cases s with
  | declare n path => cases later
  | chip size =>
      cases taken
      exact declared
  | nest c p =>
      simp only [settle, nest, found, Option.bind_some, Option.ite_none_left_eq_some] at taken
      obtain ⟨-, -, taken⟩ := taken
      cases taken
      rfl
  | corner n upper x y =>
      simp only [settle, declared, if_true] at taken
      cases taken
      cases upper <;> exact declared
  | _ =>
      simp only [settle, change, found, Option.map_some] at taken
      cases taken
      rfl

theorem after_of_sets (sets : s.sets? = some name) : e.after name s = e.settle s := by
  cases s with
  | declare n path => cases sets
  | _ => exact if_pos sets

/-- No group is nested in itself. -/
theorem childrenIn_of_settle (sets : s.sets? = some name) (taken : e.settle s = some e') :
    childrenIn name [s] = [] := by
  cases s with
  | nest child parent =>
      obtain rfl : child = name := Option.some.inj sets
      simp only [settle, Option.ite_none_left_eq_some] at taken
      simp [childrenIn, Ne.symm taken.1]
  | _ => rfl

/-- What a statement says of a group on which it sets nothing. -/
theorem after_of_not_sets (sets : s.sets? ≠ some name) (declares : s.declares? ≠ some name)
    (declared : e.group.isSome) : e.after name s = some (e.adopt (childrenIn name [s])) := by
  have other : s.subject? ≠ some name := by
    cases s with
    | declare n path => exact declares
    | _ => exact sets
  unfold after
  rw [if_neg other]
  cases s with
  | nest child parent =>
      by_cases host : parent = name
      · subst host
        have children : childrenIn parent [(.nest child parent : Statement α)] = [child] := by
          simp [childrenIn]
        obtain ⟨g, lower, upper⟩ := e
        obtain ⟨g, rfl⟩ := Option.isSome_iff_exists.mp declared
        rw [children]
        exact if_pos rfl
      · simp [host, childrenIn, adopt_nil]
  | _ => exact congrArg some (adopt_nil e).symm

theorem declared_after (declares : s.declares? ≠ some name) (declared : e.group.isSome)
    (taken : e.after name s = some e') : e'.group.isSome := by
  by_cases sets : s.sets? = some name
  · rw [after_of_sets sets] at taken
    exact declared_settle (Statement.declares_of_sets sets) declared taken
  · rw [after_of_not_sets sets declares declared] at taken
    cases taken
    simpa [adopt] using declared

/-- After its declaration a group is made by the statements that set something on it, in their
order, and by the children that are nested in it. -/
theorem foldlM_after_eq (later : ∀ s ∈ ss, s.declares? ≠ some name) (declared : e.group.isSome) :
    ss.foldlM (after name) e = ((ss.filter (·.sets? = some name)).foldlM settle e).map
      (·.adopt (childrenIn name ss)) := by
  induction ss generalizing e with
  | nil => exact congrArg some (adopt_nil e).symm
  | cons s ss ih =>
      obtain ⟨here, later⟩ := List.forall_mem_cons.mp later
      have children : childrenIn name (s :: ss) = childrenIn name [s] ++ childrenIn name ss :=
        childrenIn_append name [s] ss
      rw [List.foldlM_cons]
      by_cases sets : s.sets? = some name
      case pos =>
        rw [List.filter_cons_of_pos (by simpa using sets), List.foldlM_cons, after_of_sets sets]
        cases settled : e.settle s with
        | none => rfl
        | some e₁ =>
            rw [children, childrenIn_of_settle sets settled, List.nil_append]
            exact ih later (declared_settle (Statement.declares_of_sets sets) declared settled)
      case neg =>
        -- A child that is added here may as well be added at the end.
        have settings : ∀ t ∈ ss.filter (·.sets? = some name), t.declares? = none := fun t mem =>
          Statement.declares_of_sets (by simpa using (List.mem_filter.mp mem).2)
        have declared' : (e.adopt (childrenIn name [s])).group.isSome := by
          simpa [adopt] using declared
        rw [List.filter_cons_of_neg (by simpa using sets), after_of_not_sets sets here declared,
          children]
        change ss.foldlM (after name) (e.adopt _) = _
        rw [ih later declared', foldlM_settle_adopt _ settings, Option.map_map]
        congr 1
        funext e₁
        exact (adopt_append ..).symm

theorem after_of_not_concerns (aside : ¬ s.Concerns name) : e.after name s = some e := by
  simp only [Statement.Concerns, Statement.Names, not_or] at aside
  obtain ⟨declares, sets, hosts⟩ := aside
  unfold after
  cases s with
  | declare n path => exact if_neg declares
  | nest child parent =>
      exact (if_neg sets).trans (if_neg fun host => hosts (congrArg some host))
  | _ => exact if_neg sets

theorem foldlM_of_not_concerns (aside : ∀ s ∈ ss, ¬ s.Concerns name) :
    ss.foldlM (after name) e = some e := by
  induction ss with
  | nil => rfl
  | cons s ss ih =>
      obtain ⟨here, later⟩ := List.forall_mem_cons.mp aside
      rw [List.foldlM_cons, after_of_not_concerns here]
      exact ih later

/-- A group is declared before it is named. -/
theorem after_of_names (undeclared : e.group = none) (names : s.Names name) :
    e.after name s = none := by
  by_cases sets : s.sets? = some name
  case pos =>
    rw [after_of_sets sets]
    cases s <;> simp_all [settle, change, nest, Statement.sets?, Statement.subject?]
  case neg =>
    have hosts := names.resolve_left sets
    cases s with
    | nest child parent =>
        obtain rfl : parent = name := Option.some.inj hosts
        refine (if_neg sets).trans ((if_pos rfl).trans ?_)
        rw [change, undeclared]
        rfl
    | _ => cases hosts

/-- A group is declared once. -/
theorem declares_of_foldlM (declared : e.group.isSome)
    (run : ss.foldlM (after name) e = some e') : ∀ s ∈ ss, s.declares? ≠ some name := by
  induction ss generalizing e with
  | nil => simp
  | cons s ss ih =>
      obtain ⟨e₁, taken, run⟩ := Option.bind_eq_some_iff.mp (List.foldlM_cons.symm.trans run)
      by_cases declares : s.declares? = some name
      case pos =>
        cases s with
        | declare n path =>
            have refused : e.settle (.declare n path) = none := if_pos declared
            have taken : e.settle (.declare n path) = some e₁ := (if_pos declares).symm.trans taken
            cases refused.symm.trans taken
        | _ => cases declares
      case neg =>
        exact List.forall_mem_cons.mpr ⟨declares, ih (declared_after declares declared taken) run⟩

/-- The group is declared once, and nothing is said of it before. -/
def Opened (name : String) (path : Option String) (ss : List (Statement α)) : Prop :=
  ∃ front back, ss = front ++ .declare name path :: back ∧ (∀ s ∈ front, ¬ s.Concerns name) ∧
    ∀ s ∈ back, s.declares? ≠ some name

theorem opened_of_foldlM (undeclared : e.group = none)
    (run : ss.foldlM (after name) e = some e') :
    (∀ s ∈ ss, ¬ s.Concerns name) ∨ ∃ path, Opened name path ss := by
  induction ss with
  | nil => simp
  | cons s ss ih =>
      obtain ⟨e₁, taken, run⟩ := Option.bind_eq_some_iff.mp (List.foldlM_cons.symm.trans run)
      by_cases concerns : s.Concerns name
      case pos =>
        rcases concerns with declares | names
        · cases s with
          | declare n path =>
              obtain rfl : n = name := Option.some.inj declares
              have taken : e.settle (.declare n path) = some e₁ := (if_pos rfl).symm.trans taken
              simp only [settle, undeclared] at taken
              cases taken
              exact .inr ⟨path, [], ss, rfl, by simp, declares_of_foldlM rfl run⟩
          | _ => cases declares
        · cases (after_of_names undeclared names).symm.trans taken
      case neg =>
        obtain rfl : e = e₁ := Option.some.inj ((after_of_not_concerns concerns).symm.trans taken)
        refine (ih run).imp (fun aside => List.forall_mem_cons.mpr ⟨concerns, aside⟩) ?_
        rintro ⟨path, front, back, rfl, aside, once⟩
        exact ⟨path, s :: front, back, rfl, List.forall_mem_cons.mpr ⟨concerns, aside⟩, once⟩

omit [Scalar α] in
theorem Opened.rearranged {path : Option String} (opened : Opened name path ss)
    (rearranged : Rearranged ss ss') : Opened name path ss' := by
  obtain ⟨front, back, rfl, aside, once⟩ := opened
  have mem : .declare name path ∈ ss' := rearranged.perm.mem_iff.mpr (by simp)
  obtain ⟨front', back', rfl⟩ := List.append_of_mem mem
  -- There is no second declaration, since there are as many as before.
  have count := rearranged.perm.countP_eq (·.declares? = some name)
  have before : front.countP (·.declares? = some name) = 0 :=
    List.countP_eq_zero.mpr fun s mem declares => aside s mem (.inl (by simpa using declares))
  have after : back.countP (·.declares? = some name) = 0 :=
    List.countP_eq_zero.mpr fun s mem declares => once s mem (by simpa using declares)
  have other (s : Statement α) (mem : s ∈ front' ++ back') : s.declares? ≠ some name := by
    have none : (front' ++ back').countP (·.declares? = some name) = 0 := by
      simp only [List.countP_append, List.countP_cons, before, after] at count ⊢
      omega
    simpa using List.countP_eq_zero.mp none s mem
  obtain ⟨-, -, first⟩ := List.pairwise_append.mp rearranged.declared
  refine ⟨front', back', rfl, fun s mem => ?_, fun s mem => other s (List.mem_append_right _ mem)⟩
  rintro (declares | names)
  · exact other s (List.mem_append_left _ mem) declares
  · exact first s mem _ List.mem_cons_self name rfl names

theorem Opened.foldlM_eq {path : Option String} (opened : Opened name path ss) :
    ss.foldlM (after name) {} = ((ss.filter (·.sets? = some name)).foldlM settle
      ({ group := some { name, sourcePath := path, area := 0 } } : Entry α)).map
        (·.adopt (childrenIn name ss)) := by
  obtain ⟨front, back, rfl, aside, once⟩ := opened
  have settings : (front ++ .declare name path :: back).filter (·.sets? = some name) =
      back.filter (·.sets? = some name) := by
    have before : front.filter (·.sets? = some name) = [] :=
      List.filter_eq_nil_iff.mpr fun s mem sets => aside s mem (.inr (.inl (by simpa using sets)))
    rw [List.filter_append, before]
    rfl
  have children : childrenIn name (front ++ .declare name path :: back) = childrenIn name back := by
    have before : childrenIn name front = [] := List.eq_nil_iff_forall_not_mem.mpr fun child mem =>
      aside _ (mem_childrenIn.mp mem) (.inr (.inr rfl))
    rw [childrenIn_append, before]
    rfl
  rw [settings, children, List.foldlM_append, foldlM_of_not_concerns aside]
  change (after name {} (.declare name path) >>= _) = _
  have declared : after name ({} : Entry α) (.declare name path) =
      some { group := some { name, sourcePath := path, area := 0 } } := if_pos rfl
  rw [declared]
  exact foldlM_after_eq once rfl

end Entry

/-- What is known of a group does not depend on the arrangement. -/
theorem Rearranged.entry (rearranged : Rearranged ss ss') {e : Entry α}
    (run : ss.foldlM (Entry.after name) {} = some e) :
    ss'.foldlM (Entry.after name) {} = some e := by
  rcases Entry.opened_of_foldlM rfl run with aside | ⟨path, opened⟩
  · have aside' : ∀ s ∈ ss', ¬ s.Concerns name := fun s mem =>
      aside s (rearranged.perm.subset mem)
    rw [Entry.foldlM_of_not_concerns aside']
    rwa [Entry.foldlM_of_not_concerns aside] at run
  · have children : (childrenIn name ss').Perm (childrenIn name ss) :=
      rearranged.perm.filterMap _
    rw [opened.foldlM_eq] at run
    rw [(opened.rearranged rearranged).foldlM_eq, rearranged.order, ← run]
    congr 1
    funext e₁
    exact Entry.adopt_perm children e₁

theorem Rearranged.describes (rearranged : Rearranged ss ss') {set : ConstraintSet α}
    (describes : Describes ss set) : Describes ss' set where
  chip := rearranged.chip describes.chip
  groups name := by
    obtain ⟨e, run, finished⟩ := Option.bind_eq_some_iff.mp (describes.groups name)
    rw [rearranged.entry run]
    exact finished
  shallow := describes.shallow

/-! ### Texts -/

theorem Draft.reads_iff {texts : List (Nat × List Char)} :
    Draft.Reads texts ss ↔ texts.map (fun e => Statement.ofList e.2) = ss.map .ok := by
  rw [← List.forall₂_eq_eq_eq, List.forall₂_map_left_iff, List.forall₂_map_right_iff]
  rfl

theorem Draft.Reads.unique {texts : List (Nat × List Char)} (reads : Draft.Reads texts ss)
    (reads' : Draft.Reads texts ss') : ss = ss' :=
  List.map_injective_iff.mpr (fun _ _ => Except.ok.inj)
    ((Draft.reads_iff.mp reads).symm.trans (Draft.reads_iff.mp reads'))

/-- What a file says may be written down in any order with the texts of its statements. -/
theorem exists_text_of_perm {source : List Char} {ss ss' : List (Statement α)}
    (reads : Draft.Reads (statements source) ss) (perm : ss'.Perm ss) :
    ∃ text, ((statements text).map Prod.snd).Perm ((statements source).map Prod.snd) ∧
      Draft.Reads (statements text) ss' := by
  obtain ⟨texts, read, moved⟩ := List.perm_comp_forall₂ perm reads.flip
  have plain : ∀ body ∈ texts.map Prod.snd, Plain body := by
    intro body mem
    obtain ⟨e, listed, rfl⟩ := List.mem_map.mp mem
    have here := moved.subset listed
    exact plain_of_mem_statements here (even_of_reads reads here)
  refine ⟨joined (texts.map Prod.snd), ?_, ?_⟩
  · have bodies : ((texts.map Prod.snd).map fun body => (1, body)).map Prod.snd =
        texts.map Prod.snd := by simp
    rw [statements_joined plain, bodies]
    exact moved.map _
  · rw [statements_joined plain, List.map_map]
    exact List.forall₂_map_left_iff.mpr read.flip

end HardwareLinker.Constraint

namespace HardwareLinker

open Constraint

/-- **The order of statements is free up to dependencies.** The statements of an accepted file may
be put into any order that keeps the declaration of each group before the statements that name it,
and those that set something on one group in their order: the texts of the statements can be written
down in that order, and every file that reads so is accepted and gives the same set. -/
theorem ConstraintSet.ofText_rearranged {α : Type} [Scalar α] (source : String)
    (set : ConstraintSet α) (read : ofText source = .ok set) :
    ∃ ss : List (Statement α), Draft.Reads (statements source.toList) ss ∧
      ∀ ss', Rearranged ss ss' →
        (∃ text : String, Draft.Reads (statements text.toList) ss' ∧
          ((statements text.toList).map Prod.snd).Perm ((statements source.toList).map Prod.snd)) ∧
        ∀ text : String, Draft.Reads (statements text.toList) ss' → ofText text = .ok set := by
  obtain ⟨ss, reads, describes⟩ := ofText_eq_ok_iff.mp read
  refine ⟨ss, reads, fun ss' rearranged => ⟨?_, fun text said => ?_⟩⟩
  · obtain ⟨text, moved, said⟩ := exists_text_of_perm reads rearranged.perm
    exact ⟨String.ofList text, by simpa using said, by simpa using moved⟩
  · exact ofText_eq_ok_iff.mpr ⟨ss', said, rearranged.describes describes⟩

namespace Constraint

/-- The statements of `nestedSource`. -/
def nestedStatements : List (Statement Rat) :=
  [.declare "user" none, .declare "in" none, .declare "dram" none, .nest "user" "in",
    .chip ⟨100, 100⟩, .nest "dram" "in", .locate "user" 50 50]

/-- The same statements, those on each group behind its declaration. -/
def regroupedStatements : List (Statement Rat) :=
  [.chip ⟨100, 100⟩, .declare "in" none, .declare "dram" none, .nest "dram" "in",
    .declare "user" none, .nest "user" "in", .locate "user" 50 50]

/-- A text of the statements in that order. -/
def regroupedSource : String :=
  "DIMENSION FPGA 100,100; AREAGROUP in = None;
   AREAGROUP dram = None; dram in in;
   AREAGROUP user = None; user in in; LOCATION user 50,50"

theorem reads_nested : Draft.Reads (statements nestedSource.toList) nestedStatements :=
  Draft.reads_iff.mpr (by decide +kernel)

theorem reads_regrouped : Draft.Reads (statements regroupedSource.toList) regroupedStatements :=
  Draft.reads_iff.mpr (by decide +kernel)

theorem rearranged_nested : Rearranged nestedStatements regroupedStatements where
  perm := by decide +kernel
  declared := by
    simp [regroupedStatements, Statement.declares?, Statement.Names, Statement.sets?,
      Statement.subject?, Statement.hosts?]
  order name := by
    by_cases user : name = "user"
    · subst user
      rfl
    by_cases dram : name = "dram"
    · subst dram
      rfl
    simp [nestedStatements, regroupedStatements, Statement.sets?, Statement.subject?,
      Ne.symm user, Ne.symm dram]

end Constraint

theorem ConstraintSet.ofText_rearranged_regrouped : ∃ set : ConstraintSet Rat,
    ofText nestedSource = .ok set ∧ ofText regroupedSource = .ok set := by
  have accepted : (ofText (α := Rat) nestedSource).toOption.isSome = true := by decide +kernel
  obtain ⟨set, read⟩ := Option.isSome_iff_exists.mp accepted
  have read := toOption_eq_some.mp read
  obtain ⟨ss, reads, moved⟩ := ofText_rearranged nestedSource set read
  obtain rfl : ss = nestedStatements := reads.unique reads_nested
  exact ⟨set, read, (moved _ rearranged_nested).2 regroupedSource reads_regrouped⟩

end HardwareLinker
