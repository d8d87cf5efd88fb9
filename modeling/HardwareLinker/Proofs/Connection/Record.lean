import HardwareLinker.Connection.Record
import HardwareLinker.Proofs.Decimal.Numeral
import HardwareLinker.Proofs.Except
import HardwareLinker.Proofs.Text.Split

/-!
The grammar of connection records, and that reading accepts exactly the texts of this grammar.
-/

namespace HardwareLinker.Connection

/-- With `opened` braces open before it, a text that never closes more braces than are open, and
leaves none of them open. -/
structure Balanced (opened : Nat) (cs : List Char) : Prop where
  closes_le : ∀ front, front <+: cs → front.count '\x7d' ≤ opened + front.count '\x7b'
  closes_all : cs.count '\x7d' = opened + cs.count '\x7b'

namespace Balanced

variable {opened : Nat} {cs : List Char}

theorem nil_iff : Balanced opened [] ↔ opened = 0 := by
  constructor
  · intro h
    simpa using h.closes_all.symm
  · rintro rfl
    exact ⟨by simp, by simp⟩

/-- One character moves the number of open braces, which never falls below zero. -/
theorem cons_iff {c : Char} {opened' : Nat}
    (step : opened + [c].count '\x7b' = opened' + [c].count '\x7d') :
    Balanced opened (c :: cs) ↔ Balanced opened' cs := by
  have count (x : Char) (front : List Char) :
      (c :: front).count x = [c].count x + front.count x := by
    rw [List.count_cons, List.count_singleton, Nat.add_comm]
  have counts (front : List Char) := And.intro (count '\x7b' front) (count '\x7d' front)
  constructor
  · intro h
    refine ⟨fun front hfront => ?_, ?_⟩
    · have le := h.closes_le (c :: front) (List.cons_prefix_cons.mpr ⟨rfl, hfront⟩)
      have := counts front
      omega
    · have all := h.closes_all
      have := counts cs
      omega
  · intro h
    refine ⟨fun front hfront => ?_, ?_⟩
    · cases front with
      | nil => simp
      | cons f front =>
          obtain ⟨rfl, hrest⟩ := List.cons_prefix_cons.mp hfront
          have le := h.closes_le front hrest
          have := counts front
          omega
    · have all := h.closes_all
      have := counts cs
      omega

theorem open_iff : Balanced opened ('\x7b' :: cs) ↔ Balanced (opened + 1) cs :=
  cons_iff (by simp)

theorem close_iff : Balanced (opened + 1) ('\x7d' :: cs) ↔ Balanced opened cs :=
  cons_iff (by simp)

theorem not_close : ¬ Balanced 0 ('\x7d' :: cs) := by
  intro h
  simpa using h.closes_le ['\x7d'] (by simp)

theorem other_iff {c : Char} (opens : c ≠ '\x7b') (closes : c ≠ '\x7d') :
    Balanced opened (c :: cs) ↔ Balanced opened cs :=
  cons_iff (by simp [opens, closes])

end Balanced

/-- A character inside the braces belongs to the text that they enclose. -/
theorem enclosed_cons {opened opened' : Nat} {c : Char} {cs inside after : List Char}
    (goesOn : ¬ (c = '\x7d' ∧ opened = 0))
    (step : ∀ rest, Balanced opened (c :: rest) ↔ Balanced opened' rest) :
    (∃ rest, (cs = rest ++ '\x7d' :: after ∧ Balanced opened' rest) ∧ c :: rest = inside) ↔
      c :: cs = inside ++ '\x7d' :: after ∧ Balanced opened inside := by
  cases inside with
  | nil =>
      simp only [reduceCtorEq, and_false, exists_false, List.nil_append, List.cons.injEq,
        Balanced.nil_iff, false_iff]
      rintro ⟨⟨close, -⟩, none⟩
      exact goesOn ⟨close, none⟩
  | cons b inside =>
      simp only [List.cons.injEq, List.cons_append]
      constructor
      · rintro ⟨rest, ⟨rfl, balanced⟩, rfl, rfl⟩
        exact ⟨⟨rfl, rfl⟩, (step rest).mpr balanced⟩
      · rintro ⟨⟨rfl, rfl⟩, balanced⟩
        exact ⟨inside, ⟨rfl, (step inside).mp balanced⟩, rfl, rfl⟩

theorem closeBrace_eq_some {opened : Nat} {cs inside after : List Char} :
    closeBrace (opened + 1) cs = some (inside, after) ↔
      cs = inside ++ '\x7d' :: after ∧ Balanced opened inside := by
  induction cs generalizing opened inside with
  | nil => simp [closeBrace]
  | cons c cs ih =>
      by_cases opens : c = '\x7b'
      · subst opens
        rw [← enclosed_cons (by simp) fun rest => Balanced.open_iff]
        simp [closeBrace, ih]
      by_cases closes : c = '\x7d'
      · subst closes
        cases opened with
        | zero =>
            cases inside with
            | nil => simp [closeBrace, Balanced.nil_iff]
            | cons b inside =>
                simp only [closeBrace, beq_self_eq_true, Nat.le_refl, decide_true, Bool.and_self,
                  if_true, Option.some.injEq, Prod.mk.injEq, List.nil_eq, reduceCtorEq, false_and,
                  List.cons_append, List.cons.injEq, false_iff]
                rintro ⟨⟨rfl, -⟩, balanced⟩
                exact Balanced.not_close balanced
        | succ opened =>
            rw [← enclosed_cons (by simp) fun rest => Balanced.close_iff]
            simp [closeBrace, ih]
      · rw [← enclosed_cons (by simp [closes]) fun rest => Balanced.other_iff opens closes]
        simp [closeBrace, opens, closes, ih]

theorem splitBraced_eq_some {cs inside after : List Char} :
    splitBraced cs = some (inside, after) ↔
      cs = '\x7b' :: inside ++ '\x7d' :: after ∧ Balanced 0 inside := by
  cases cs with
  | nil => simp [splitBraced]
  | cons c cs =>
      by_cases hc : c = '\x7b'
      · simpa [splitBraced, hc] using closeBrace_eq_some
      · simp [splitBraced, hc]

/-! ### The grammar -/

namespace Record

/-- The fields of a record in the order of its text, each as it is written there. -/
def texts (r : Record) (index width root : String) : List String :=
  [r.kind.text, "\x7b" ++ r.type ++ "\x7d", index, r.name, if r.optional then "True" else "False",
    width, r.owner, root]

theorem text_eq (r : Record) :
    r.text = ":".intercalate
      (r.texts (toString r.index) (toString r.width) (r.chainRoot.getD "None")) := rfl

/-- The text `t`, which stands behind a mark, is one of the record `r`. -/
def Written (t : List Char) (r : Record) : Prop :=
  ∃ index width root : String,
    t = (":".intercalate (r.texts index width root)).toList ∧
    Balanced 0 r.type.toList ∧
    (Denotes index.toList r.index ∧ r.index ≤ wordLimit) ∧
    (Denotes width.toList r.width ∧ r.width ≤ wordLimit) ∧
    (r.name ≠ "" ∧ ':' ∉ r.name.toList) ∧
    (r.owner ≠ "" ∧ ':' ∉ r.owner.toList) ∧
    ':' ∉ root.toList ∧
    r.chainRoot = if root = "" ∨ root = "None" then none else some root

theorem readNumber_eq_ok {fault : String → RecordFault} {field : String} {n : Nat} :
    readNumber fault field = .ok n ↔ Denotes field.toList n ∧ n ≤ wordLimit := by
  rw [← natBelow?_eq_some]
  unfold readNumber
  split <;> simp_all

theorem readFlag_eq_ok {field : String} {b : Bool} :
    readFlag field = .ok b ↔ field = if b then "True" else "False" := by
  unfold readFlag
  by_cases isTrue : field = "True"
  · cases b <;> simp [isTrue]
  · by_cases isFalse : field = "False"
    · cases b <;> simp [isFalse]
    · cases b <;> simp [isTrue, isFalse]

theorem readRoot_eq (field : String) :
    readRoot field = if field = "" ∨ field = "None" then none else some field := by
  simp [readRoot, or_comm]

end Record

theorem RecordKind.ofText?_eq_some {s : String} {kind : RecordKind} :
    ofText? s = some kind ↔ s = kind.text := by
  constructor
  · intro h
    have found := List.find?_some (show all.find? (fun k => k.text == s) = some kind from h)
    exact (eq_of_beq found).symm
  · rintro rfl
    cases kind <;> decide

namespace Record

theorem ofFields_eq_ok {kind type : String} {fields : List String} {r : Record} :
    ofFields kind type fields = .ok r ↔
      ∃ index width root,
        fields = [index, r.name, if r.optional then "True" else "False", width, r.owner, root] ∧
        kind = r.kind.text ∧ type = r.type ∧
        (Denotes index.toList r.index ∧ r.index ≤ wordLimit) ∧
        (Denotes width.toList r.width ∧ r.width ≤ wordLimit) ∧
        r.name ≠ "" ∧ r.owner ≠ "" ∧ r.chainRoot = readRoot root := by
  simp only [← RecordKind.ofText?_eq_some]
  unfold ofFields
  split
  case h_1 index name flag width owner root =>
    simp only [bind_eq_ok_iff, refuse_eq_ok_iff, readNumber_eq_ok, readFlag_eq_ok,
      String.isEmpty_iff]
    constructor
    · rintro ⟨i, hi, hname, b, rfl, w, hw, howner, made⟩
      split at made
      case h_1 k known =>
        cases made
        exact ⟨index, width, root, rfl, known, rfl, hi, hw, hname, howner, rfl⟩
      case h_2 => cases made
    · rintro ⟨_, _, _, hfields, known, rfl, hi, hw, hname, howner, hroot⟩
      simp only [List.cons.injEq, and_true] at hfields
      obtain ⟨rfl, rfl, rfl, rfl, rfl, rfl⟩ := hfields
      refine ⟨_, hi, hname, _, rfl, _, hw, howner, ?_⟩
      rw [known, ← hroot]
      rfl
  case h_2 wrong =>
    simp only [reduceCtorEq, false_iff]
    rintro ⟨index, width, root, rfl, -⟩
    exact wrong _ _ _ _ _ _ rfl

theorem colon_not_mem_kind (kind : RecordKind) : ':' ∉ kind.text.toList := by
  cases kind <;> decide

theorem toList_texts (r : Record) (index width root : String) :
    (":".intercalate (r.texts index width root)).toList =
      r.kind.text.toList ++ ':' :: ('\x7b' :: r.type.toList ++ '\x7d' :: ':' ::
        [':'].intercalate ([index, r.name, if r.optional then "True" else "False", width, r.owner,
          root].map String.toList)) := by
  simp [texts, List.intercalate, List.intersperse]

/-- The text of a record ends as its last field does. -/
theorem getLast?_texts (r : Record) (index width : String) {root : String} (h : root ≠ "") :
    (":".intercalate (r.texts index width root)).toList.getLast? = root.toList.getLast? := by
  obtain ⟨front, hfront⟩ : ∃ front,
      (":".intercalate (r.texts index width root)).toList = front ++ root.toList := by
    rw [toList_texts]
    simp only [List.intercalate, List.intersperse, List.map_cons, List.map_nil, List.flatten_cons,
      List.flatten_nil, List.append_nil, ← List.cons_append, ← List.append_assoc]
    exact ⟨_, rfl⟩
  have nonempty : root.toList ≠ [] := by simpa using h
  rw [hfront, List.getLast?_append_of_ne_nil _ nonempty]

/-- The cuts that lead to the fields of a marked text. -/
theorem ofMarked_eq_ok_iff_cuts {t : List Char} {r : Record} :
    ofMarked t = .ok r ↔
      ∃ kind rest type fields, Text.splitOnce ':' t = some (kind, rest) ∧
        splitBraced rest = some (type, ':' :: fields) ∧
        ofFields (String.ofList kind) (String.ofList type)
          ((fields.splitOn ':').map String.ofList) = .ok r := by
  unfold ofMarked
  constructor
  · intro h
    split at h
    case h_1 => cases h
    case h_2 kind rest cut =>
      split at h
      case h_1 => cases h
      case h_2 type fields braced => exact ⟨kind, rest, type, fields, cut, braced, h⟩
      case h_3 => cases h
  · rintro ⟨kind, rest, type, fields, cut, braced, read⟩
    simp only [cut, braced, read]

theorem splitOn_map_ofList_eq_iff {sep : Char} {cs : List Char} {fields : List String} :
    (cs.splitOn sep).map String.ofList = fields ↔
      cs = [sep].intercalate (fields.map String.toList) ∧ fields ≠ [] ∧
        ∀ field ∈ fields, sep ∉ field.toList := by
  have lists : (cs.splitOn sep).map String.ofList = fields ↔
      cs.splitOn sep = fields.map String.toList := by
    constructor
    · rintro rfl
      simp [Function.comp_def]
    · intro h
      simp [h, Function.comp_def]
  rw [lists, Text.splitOn_eq_iff]
  simp

theorem colon_not_mem_numeral {text : List Char} {n : Nat} (h : Denotes text n) : ':' ∉ text := by
  obtain ⟨digits, htext, -, all, -⟩ := h
  have free : ':' ∉ digits := fun h => absurd (all ':' h) (by decide)
  rcases htext with rfl | rfl
  · exact free
  · simpa using free

/-- The text behind a mark is read exactly if it follows the grammar, and then as the record that it
is a text of. -/
theorem ofMarked_eq_ok {t : List Char} {r : Record} : ofMarked t = .ok r ↔ Written t r := by
  simp only [ofMarked_eq_ok_iff_cuts, Text.splitOnce_eq_some, splitBraced_eq_some, ofFields_eq_ok,
    splitOn_map_ofList_eq_iff, readRoot_eq]
  constructor
  · rintro ⟨kind, rest, type, fields, ⟨rfl, -⟩, ⟨rfl, balanced⟩, index, width, root,
      ⟨rfl, -, free⟩, hkind, htype, hindex, hwidth, hname, howner, hroot⟩
    obtain rfl : kind = r.kind.text.toList := by simp [← hkind]
    obtain rfl : type = r.type.toList := by simp [← htype]
    exact ⟨index, width, root, (toList_texts ..).symm, balanced, hindex, hwidth,
      ⟨hname, free _ (by simp)⟩, ⟨howner, free _ (by simp)⟩, free _ (by simp), hroot⟩
  · rintro ⟨index, width, root, ht, balanced, hindex, hwidth, hname, howner, rootFree, hroot⟩
    have flagFree : ':' ∉ (if r.optional then "True" else "False").toList := by
      cases r.optional <;> decide
    refine ⟨r.kind.text.toList, _, r.type.toList, _,
      ⟨ht.trans (toList_texts ..), colon_not_mem_kind r.kind⟩, ⟨rfl, balanced⟩, index, width, root,
      ⟨rfl, by simp, ?_⟩, String.ofList_toList, String.ofList_toList, hindex, hwidth, hname.1,
      howner.1, hroot⟩
    simp only [List.forall_mem_cons, List.not_mem_nil, false_imp_iff, implies_true, and_true]
    exact ⟨colon_not_mem_numeral hindex.1, hname.2, flagFree, colon_not_mem_numeral hwidth.1,
      howner.2, rootFree⟩

/-! ### Lines -/

/-- Behind its first mark, and without the blanks at its end, the line reads `t`. -/
def Marked (line : String) (t : List Char) : Prop :=
  ∃ before blanks, Text.FirstMark mark before (t ++ blanks) line.toList ∧
    (∀ c ∈ blanks, Text.isBlank c = true) ∧ ∀ c ∈ t.getLast?, Text.isBlank c = false

theorem marked_iff {line : String} {t : List Char} :
    Marked line t ↔ ∃ rest, Text.after? mark line.toList = some rest ∧ Text.trimEnd rest = t := by
  simp only [Text.after?_eq_some, Text.trimEnd_eq_iff]
  constructor
  · rintro ⟨before, blanks, first, blank, last⟩
    exact ⟨_, ⟨before, first⟩, ⟨blanks, rfl, blank⟩, last⟩
  · rintro ⟨_, ⟨before, first⟩, ⟨blanks, rfl, blank⟩, last⟩
    exact ⟨before, blanks, first, blank, last⟩

theorem ofLine_of_unmarked {line : String} (h : ¬ mark <:+: line.toList) :
    ofLine line = .ok none := by
  simp [ofLine, Text.after?_eq_none.mpr h]

theorem ofLine_of_marked {line : String} {t : List Char} (h : Marked line t) :
    ofLine line = (ofMarked t).map some := by
  obtain ⟨rest, found, rfl⟩ := marked_iff.mp h
  simp [ofLine, found]

theorem marked_or_unmarked (line : String) : (∃ t, Marked line t) ∨ ¬ mark <:+: line.toList := by
  cases h : Text.after? mark line.toList with
  | none => exact .inr (Text.after?_eq_none.mp h)
  | some rest => exact .inl ⟨_, marked_iff.mpr ⟨rest, h, rfl⟩⟩

/-- The records that a line can announce. -/
structure Printable (r : Record) : Prop where
  type : Balanced 0 r.type.toList
  index : r.index ≤ wordLimit
  width : r.width ≤ wordLimit
  name : r.name ≠ "" ∧ ':' ∉ r.name.toList
  owner : r.owner ≠ "" ∧ ':' ∉ r.owner.toList
  chainRoot : ∀ root ∈ r.chainRoot, root ≠ "" ∧ root ≠ "None" ∧ ':' ∉ root.toList ∧
    ∀ c ∈ root.toList.getLast?, Text.isBlank c = false

theorem printable_of_written {line : String} {t : List Char} {r : Record} (marked : Marked line t)
    (h : Written t r) : r.Printable := by
  obtain ⟨before, blanks, -, -, last⟩ := marked
  obtain ⟨index, width, root, ht, balanced, hindex, hwidth, hname, howner, rootFree, hroot⟩ := h
  refine ⟨balanced, hindex.2, hwidth.2, hname, howner, fun root' hroot' => ?_⟩
  rw [hroot, Option.mem_def, Option.ite_none_left_eq_some, not_or] at hroot'
  obtain ⟨⟨nonempty, notNone⟩, same⟩ := hroot'
  obtain rfl : root = root' := by simpa using same
  rw [ht, getLast?_texts r index width nonempty] at last
  exact ⟨nonempty, notNone, rootFree, last⟩

namespace Printable

variable {r : Record}

/-- The text of a printable record follows the grammar. -/
theorem written (h : r.Printable) : Written r.text.toList r := by
  refine ⟨toString r.index, toString r.width, r.chainRoot.getD "None", rfl, h.type,
    ⟨denotes_toString _, h.index⟩, ⟨denotes_toString _, h.width⟩, h.name, h.owner, ?_, ?_⟩
  · cases hr : r.chainRoot with
    | none => decide
    | some root => exact (h.chainRoot root hr).2.2.1
  · cases hr : r.chainRoot with
    | none => simp
    | some root =>
        obtain ⟨nonempty, notNone, -⟩ := h.chainRoot root hr
        simp [nonempty, notNone]

theorem marked (h : r.Printable) : Marked ("Dangling" ++ r.text) r.text.toList := by
  refine ⟨[], [], ?_, by simp, ?_⟩
  · have line : ("Dangling" ++ r.text).toList = mark ++ r.text.toList := String.toList_append
    rw [line, List.append_nil]
    exact Text.firstMark_nil mark _
  · have nonempty : r.chainRoot.getD "None" ≠ "" := by
      cases hr : r.chainRoot with
      | none => decide
      | some root => exact (h.chainRoot root hr).1
    rw [text_eq, getLast?_texts r _ _ nonempty]
    cases hr : r.chainRoot with
    | none =>
        have last : "None".toList.getLast? = some 'e' := by decide
        intro c hc
        obtain rfl : 'e' = c := Option.some.inj (last.symm.trans hc)
        decide
    | some root => exact (h.chainRoot root hr).2.2.2

end Printable
end Record
end HardwareLinker.Connection
