import HardwareLinker.Graph.Assembly
import HardwareLinker.Proofs.Connection.Record

/-!
What a log announces. Each line counts by itself: it has no mark and announces nothing, or the text
behind its first mark is a record of the grammar, or the log is refused at this line.
-/

namespace HardwareLinker.Graph

open Connection (Record mark RecordFault)

variable {α : Type} [Scalar α]

/-- What a line with the number `n` announces by itself. -/
def lineEnds (line : String) (n : Nat) : Except Fault (List (Connection α)) := endsOfLines [line] n

theorem lineEnds_of_ok {line : String} {record : Option Record}
    (h : Record.ofLine line = .ok record) (n : Nat) :
    lineEnds line n = .ok ((record.map Record.connections).getD [] : List (Connection α)) := by
  simp [lineEnds, endsOfLines, h, Except.map]

theorem lineEnds_of_error {line : String} {f : RecordFault} (h : Record.ofLine line = .error f)
    (n : Nat) : lineEnds (α := α) line n = .error (.malformedRecord n f) := by
  simp [lineEnds, endsOfLines, h]

theorem endsOfLines_cons (line : String) (rest : List String) (n : Nat) :
    endsOfLines (α := α) (line :: rest) n =
      lineEnds line n >>= fun part => (endsOfLines rest (n + 1)).map (part ++ ·) := by
  cases h : Record.ofLine line with
  | error f =>
      rw [lineEnds_of_error h]
      simp [endsOfLines, h, bind, Except.bind]
  | ok record =>
      rw [lineEnds_of_ok h]
      simp [endsOfLines, h, bind, Except.bind]

/-! ### One line -/

theorem lineEnds_of_unmarked {line : String} (h : ¬ mark <:+: line.toList) (n : Nat) :
    lineEnds (α := α) line n = .ok [] :=
  lineEnds_of_ok (Record.ofLine_of_unmarked h) n

theorem lineEnds_of_marked {line : String} {t : List Char} (h : Record.Marked line t) (n : Nat)
    (ends : List (Connection α)) :
    lineEnds line n = .ok ends ↔ ∃ r, Record.Written t r ∧ ends = r.connections := by
  simp only [← Record.ofMarked_eq_ok]
  have line_eq := Record.ofLine_of_marked h
  cases hr : Record.ofMarked t with
  | error f =>
      rw [hr] at line_eq
      simp [lineEnds_of_error line_eq]
  | ok r =>
      rw [hr] at line_eq
      simp [lineEnds_of_ok line_eq, eq_comm]

theorem fault_of_lineEnds {line : String} {n : Nat} {fault : Fault}
    (h : lineEnds (α := α) line n = .error fault) : ∃ f, fault = .malformedRecord n f := by
  cases hr : Record.ofLine line with
  | error f =>
      rw [lineEnds_of_error hr] at h
      cases h
      exact ⟨f, rfl⟩
  | ok record =>
      rw [lineEnds_of_ok hr] at h
      cases h

/-- The number of a line does not matter to what it announces. -/
theorem forall_lineEnds_eq_ok {line : String} (n : Nat) {ends : List (Connection α)} :
    (∀ m, lineEnds line m = .ok ends) ↔ lineEnds line n = .ok ends := by
  cases hr : Record.ofLine line with
  | error f => simp [lineEnds_of_error hr]
  | ok record => simp [lineEnds_of_ok hr]

/-! ### All lines -/

/-- The lines announce these ends, one part for each line and whatever its number. -/
def Announce (lines : List String) (parts : List (List (Connection α))) : Prop :=
  List.Forall₂ (fun line part => ∀ n, lineEnds line n = .ok part) lines parts

theorem announce_cons {line : String} {rest : List String} {parts : List (List (Connection α))}
    (n : Nat) :
    Announce (line :: rest) parts ↔
      ∃ part others,
        lineEnds line n = .ok part ∧ Announce rest others ∧ parts = part :: others := by
  constructor
  · intro h
    cases h with
    | cons hpart hothers => exact ⟨_, _, hpart n, hothers, rfl⟩
  · rintro ⟨part, others, hpart, hothers, rfl⟩
    exact .cons ((forall_lineEnds_eq_ok n).mpr hpart) hothers

theorem endsOfLines_eq_ok {lines : List String} {first : Nat} {ends : List (Connection α)} :
    endsOfLines lines first = .ok ends ↔ ∃ parts, Announce lines parts ∧ ends = parts.flatten := by
  induction lines generalizing first ends with
  | nil =>
      constructor
      · intro h
        cases h
        exact ⟨[], .nil, rfl⟩
      · rintro ⟨_, ⟨⟩, rfl⟩
        rfl
  | cons line rest ih =>
      simp only [endsOfLines_cons, bind_eq_ok_iff, announce_cons first, map_eq_ok_iff, ih]
      constructor
      · rintro ⟨part, hpart, _, ⟨others, hothers, rfl⟩, rfl⟩
        exact ⟨part :: others, ⟨part, others, hpart, hothers, rfl⟩, rfl⟩
      · rintro ⟨_, ⟨part, others, hpart, hothers, rfl⟩, rfl⟩
        exact ⟨part, hpart, _, ⟨others, hothers, rfl⟩, rfl⟩

/-- Some line is refused with this fault, and all lines before it announce something. -/
def Refused (α : Type) [Scalar α] (lines : List String) (first : Nat) (fault : Fault) : Prop :=
  ∃ before line after, lines = before ++ line :: after ∧
    (∃ parts : List (List (Connection α)), Announce before parts) ∧
    lineEnds (α := α) line (first + before.length) = .error fault

theorem refused_cons {line : String} {rest : List String} {n : Nat} {fault : Fault} :
    Refused α (line :: rest) n fault ↔
      lineEnds (α := α) line n = .error fault ∨
        ∃ part : List (Connection α),
          lineEnds line n = .ok part ∧ Refused α rest (n + 1) fault := by
  constructor
  · rintro ⟨before, bad, after, hlines, ⟨parts, announced⟩, refused⟩
    cases before with
    | nil =>
        obtain ⟨rfl, rfl⟩ : line = bad ∧ rest = after := by simpa using hlines
        exact .inl refused
    | cons b before =>
        obtain ⟨rfl, rfl⟩ : line = b ∧ rest = before ++ bad :: after := by simpa using hlines
        obtain ⟨part, others, hpart, hothers, -⟩ := (announce_cons n).mp announced
        rw [List.length_cons, Nat.add_comm before.length, ← Nat.add_assoc] at refused
        exact .inr ⟨part, hpart, before, bad, after, rfl, ⟨others, hothers⟩, refused⟩
  · rintro (refused | ⟨part, hpart, before, bad, after, rfl, ⟨others, hothers⟩, refused⟩)
    · exact ⟨[], line, rest, rfl, ⟨[], .nil⟩, refused⟩
    · refine ⟨line :: before, bad, after, rfl,
        ⟨part :: others, (announce_cons n).mpr ⟨_, _, hpart, hothers, rfl⟩⟩, ?_⟩
      rwa [List.length_cons, Nat.add_comm before.length, ← Nat.add_assoc]

/-- Reading stops at the first line that is refused. -/
theorem endsOfLines_eq_error {lines : List String} {first : Nat} {fault : Fault} :
    endsOfLines (α := α) lines first = .error fault ↔ Refused α lines first fault := by
  induction lines generalizing first with
  | nil => simp [endsOfLines, Refused]
  | cons line rest ih =>
      simp only [endsOfLines_cons, bind_eq_error_iff, map_eq_error_iff, ih, refused_cons]

/-- **Reading a log.** A line without the mark announces nothing. Any other line announces the free
ends of the record that its text behind the mark is written for, and is refused, with its number, if
there is no such record. The records that lines announce are the printable ones, and each is read
back from its own text. A log announces what its lines announce, in order, unless one is refused:
then it is refused as its first such line is. -/
theorem endsOfLog_exact :
    (∀ (line : String) (n : Nat),
      (¬ mark <:+: line.toList → lineEnds (α := α) line n = .ok []) ∧
      (mark <:+: line.toList → ∃ t, Record.Marked line t) ∧
      (∀ t, Record.Marked line t → ∀ ends : List (Connection α),
        lineEnds line n = .ok ends ↔ ∃ r, Record.Written t r ∧ ends = r.connections) ∧
      ∀ fault, lineEnds (α := α) line n = .error fault → ∃ f, fault = .malformedRecord n f) ∧
    (∀ r : Record, r.Printable ↔ ∃ line t, Record.Marked line t ∧ Record.Written t r) ∧
    (∀ r : Record, r.Printable →
      ∀ n, lineEnds ("Dangling" ++ r.text) n = .ok (r.connections : List (Connection α))) ∧
    ∀ log : String,
      (∀ ends : List (Connection α), endsOfLog log = .ok ends ↔
        ∃ parts, Announce (Text.linesOf log) parts ∧ ends = parts.flatten) ∧
      ∀ fault, endsOfLog (α := α) log = .error fault ↔
        ∃ before line after, Text.linesOf log = before ++ line :: after ∧
          (∃ parts : List (List (Connection α)), Announce before parts) ∧
          lineEnds (α := α) line (before.length + 1) = .error fault := by
  refine ⟨fun line n => ⟨fun h => lineEnds_of_unmarked h n, fun h => ?_,
    fun t h => lineEnds_of_marked h n, fun fault => fault_of_lineEnds⟩, fun r => ⟨fun h => ?_, ?_⟩,
    fun r h n => ?_, fun log => ⟨fun ends => endsOfLines_eq_ok, fun fault => ?_⟩⟩
  · exact (Record.marked_or_unmarked line).resolve_right (not_not_intro h)
  · exact ⟨_, _, h.marked, h.written⟩
  · rintro ⟨line, t, marked, written⟩
    exact Record.printable_of_written marked written
  · exact (lineEnds_of_marked h.marked n _).mpr ⟨r, h.written, rfl⟩
  · simp only [endsOfLog, endsOfLines_eq_error, Refused, Nat.add_comm 1]

/-- A chain record whose type holds colons and braces, behind other text. -/
def nestedRecord : Record :=
  { kind := .chain, type := "Tuple2#(Bit#(1), \x7ba:Bit#(2)\x7d)", index := 3, name := "stats",
    optional := true, width := 3, owner := "core", chainRoot := some "core_root" }

def nestedText : String :=
  "Chain:\x7bTuple2#(Bit#(1), \x7ba:Bit#(2)\x7d)\x7d:+3:stats:True:003:core:core_root"

def nestedLine : String := "note: Dangling" ++ nestedText ++ " \t"

/-- The record is read where it stands and read back from its own text; another line is skipped. -/
theorem endsOfLog_nested :
    ¬ mark <:+: "Elaborating module mkTop".toList ∧
    lineEnds "Elaborating module mkTop" 1 = .ok ([] : List (Connection Rat)) ∧
    Record.Marked nestedLine nestedText.toList ∧
    lineEnds nestedLine 7 = .ok (nestedRecord.connections : List (Connection Rat)) ∧
    nestedRecord.Printable ∧
    lineEnds ("Dangling" ++ nestedRecord.text) 7 =
      .ok (nestedRecord.connections : List (Connection Rat)) := by
  obtain ⟨lines, printable, printed, -⟩ := endsOfLog_exact (α := Rat)
  have unmarked : ¬ mark <:+: "Elaborating module mkTop".toList :=
    Text.after?_eq_none.mp (by decide +kernel)
  have marked : Record.Marked nestedLine nestedText.toList :=
    Record.marked_iff.mpr ⟨_, rfl, by decide +kernel⟩
  have written : Record.Written nestedText.toList nestedRecord :=
    Record.ofMarked_eq_ok.mp (by decide +kernel)
  have fits : nestedRecord.Printable := (printable nestedRecord).mpr ⟨_, _, marked, written⟩
  exact ⟨unmarked, (lines _ 1).1 unmarked, marked,
    ((lines nestedLine 7).2.2.1 nestedText.toList marked _).mpr ⟨nestedRecord, written, rfl⟩, fits,
    printed nestedRecord fits 7⟩

end HardwareLinker.Graph
