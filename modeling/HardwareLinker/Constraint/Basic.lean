import HardwareLinker.Constraint.Token
import HardwareLinker.Floorplan.Basic

/-!
The statements of the constraint language:

    DIMENSION FPGA x,y            the chip, once
    AREAGROUP name = "path"       declares a group; the path may be None
    child in parent               nests a group
    LOCATION name x,y             fixes the centre
    DIMENSION name x,y            fixes the size
    RESOURCES name area           the required area
    LOWERLEFT name x,y            with UPPERRIGHT fixes the rectangle
    UPPERRIGHT name x,y
    ATTRIBUTE name key = value

A group is declared before any other statement names it.
-/

namespace HardwareLinker.Constraint

inductive Statement (α : Type) where
  | chip (size : Size α)
  | declare (name : String) (path : Option String)
  | nest (child parent : String)
  | locate (name : String) (x y : α)
  | size (name : String) (size : Size α)
  | area (name : String) (area : α)
  | corner (name : String) (upper : Bool) (x y : α)
  | attribute (name key value : String)

/-- Why a statement is refused; each is reported with a line. -/
inductive StatementFault where
  | unterminatedString
  | noKeyword
  | declarationForm
  | pathForm
  | nestingForm
  | areaForm
  | pairForm
  | attributeForm
  | valueForm
  | unrecognized (head : String)
  | notANumber (word : String)
  | chipNotPositive
  | declaredTwice (name : String)
  | undeclared (name : String)
  | cornersSwapped (name : String)
  | cornerMissing (name : String)
deriving DecidableEq, Repr

def StatementFault.message : StatementFault → String
  | unterminatedString => "unterminated string"
  | noKeyword => "statement must start with a keyword or group name"
  | declarationForm => "expected `AREAGROUP <name> = \"<path>\" | None`"
  | pathForm => "group path must be a quoted string or None"
  | nestingForm => "expected `<child> in <parent>`"
  | areaForm => "expected `RESOURCES <name> <area>`"
  | pairForm => "expected `<x>,<y>`"
  | attributeForm => "expected `ATTRIBUTE <name> <KEY> = <VALUE>`"
  | valueForm => "attribute value must be a word or string"
  | unrecognized head => s!"unrecognized statement starting with `{head}`"
  | notANumber word => s!"`{word}` is not a number"
  | chipNotPositive => "chip dimension must be positive"
  | declaredTwice name => s!"group `{name}` declared twice"
  | undeclared name => s!"group `{name}` is not declared"
  | cornersSwapped name => s!"UPPERRIGHT of `{name}` is not above and right of LOWERLEFT"
  | cornerMissing name => s!"`{name}` needs both LOWERLEFT and UPPERRIGHT"

/-- Why a constraint file is refused. -/
inductive Fault where
  | statement (line : Nat) (fault : StatementFault)
  | chipTwice (line : Nat)
  | insideItself (group : String)
  | nestedTwice (group parent : String)
  /-- A nested group has children of its own. -/
  | nestedDeep (group parent : String)
deriving DecidableEq, Repr

/-- A fault of the file as a whole, and not of one statement. -/
def Fault.isContradiction : Fault → Bool
  | statement .. => false
  | _ => true

def Fault.detail : Fault → String
  | statement _ fault => fault.message
  | chipTwice line => s!"chip dimension declared twice (line {line})"
  | insideItself group => s!"group `{group}` cannot contain itself"
  | nestedTwice group parent => s!"group `{group}` is already inside `{parent}`"
  | nestedDeep group parent => s!"group `{group}` has children and is itself inside `{parent}`"

def Fault.message (f : Fault) : String :=
  match f with
  | statement line _ => s!"constraint line {line}: " ++ f.detail
  | _ => "placement configuration error: " ++ f.detail

namespace Statement

variable {α : Type} [Scalar α]

def readNumber (word : String) : Except StatementFault α :=
  match (Numeral.ofString? word).bind Scalar.ofNumeral? with
  | some x => .ok x
  | none => .error (.notANumber word)

def readPair : List Token → Except StatementFault (α × α)
  | [.word x, .comma, .word y] => do return (← readNumber x, ← readNumber y)
  | _ => .error .pairForm

def readDeclaration (name : String) : List Token → Except StatementFault (Statement α)
  | [.equals, .quoted path] => .ok (.declare name (some path))
  | [.equals, .word w] => if w == "None" then .ok (.declare name none) else .error .pathForm
  | [.equals, _] => .error .pathForm
  | _ => .error .declarationForm

def readArea (name : String) : List Token → Except StatementFault (Statement α)
  | [.word w] => (readNumber w).map (.area name)
  | _ => .error .areaForm

def readAttribute (name : String) : List Token → Except StatementFault (Statement α)
  | [.word key, .equals, .word value] => .ok (.attribute name key value)
  | [.word key, .equals, .quoted value] => .ok (.attribute name key value)
  | [.word _, .equals, _] => .error .valueForm
  | _ => .error .attributeForm

def readNesting (child : String) : List Token → Except StatementFault (Statement α)
  | [.word parent] => .ok (.nest child parent)
  | _ => .error .nestingForm

/-- Reads what follows a keyword and a word. A second word `in` makes a nesting of anything that is
neither a declaration nor the chip. -/
def readNamed (head name : String) (rest : List Token) : Except StatementFault (Statement α) :=
  if head == "DIMENSION" && name == "FPGA" then
    (readPair rest).map fun (w, h) => .chip ⟨w, h⟩
  else if head == "AREAGROUP" then readDeclaration name rest
  else if name == "in" then readNesting head rest
  else if head == "LOCATION" then (readPair rest).map fun (x, y) => .locate name x y
  else if head == "DIMENSION" then (readPair rest).map fun (w, h) => .size name ⟨w, h⟩
  else if head == "RESOURCES" then readArea name rest
  else if head == "LOWERLEFT" then (readPair rest).map fun (x, y) => .corner name false x y
  else if head == "UPPERRIGHT" then (readPair rest).map fun (x, y) => .corner name true x y
  else if head == "ATTRIBUTE" then readAttribute name rest
  else .error (.unrecognized head)

def ofTokens : List Token → Except StatementFault (Statement α)
  | .word head :: .word name :: rest => readNamed head name rest
  | .word head :: _ => .error (.unrecognized head)
  | _ => .error .noKeyword

def ofList (cs : List Char) : Except StatementFault (Statement α) :=
  match Token.ofList? cs with
  | some tokens => ofTokens tokens
  | none => .error .unterminatedString

end Statement
end HardwareLinker.Constraint
