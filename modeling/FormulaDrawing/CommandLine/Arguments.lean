import FormulaDrawing.Text.Pieces

/-! The arguments of a command: options, each with a value, and operands. -/

namespace FormulaDrawing.CommandLine

open Text

/-- An option is named by a word behind two dashes, and perhaps by a letter behind one. -/
structure Flag where
  long : String
  short : Option Char := none
deriving DecidableEq, Repr

structure Arguments where
  options : List (String × String) := []
  operands : List String := []
  help : Bool := false
deriving DecidableEq, Repr

def Arguments.withOption (a : Arguments) (name value : String) : Arguments :=
  { a with options := (name, value) :: a.options }

def Arguments.withOperand (a : Arguments) (s : String) : Arguments :=
  { a with operands := s :: a.operands }

inductive Shape where
  | operand
  /-- Everything behind two dashes alone is an operand. -/
  | separator
  | help
  | option (name : String) (value : Option String)
  | unknown
deriving DecidableEq, Repr

/-- A value may follow an equals sign; help takes none. -/
def longShape (flags : List Flag) (s : List Char) : Shape :=
  let (name, value) := match splitFirst? ['='] s with
    | some (name, value) => (String.ofList name, some (String.ofList value))
    | none => (String.ofList s, none)
  if name = "help" ∧ value.isNone then .help
  else if flags.any (·.long == name) then .option name value
  else .unknown

/-- A value may follow the letter directly or behind an equals sign. -/
def shortShape (flags : List Flag) (c : Char) (s : List Char) : Shape :=
  match flags.find? (·.short == some c), s with
  | some f, [] => .option f.long none
  | some f, '=' :: s => .option f.long (some (String.ofList s))
  | some f, s => .option f.long (some (String.ofList s))
  | none, _ => if c = 'h' then .help else .unknown

def shape (flags : List Flag) (argument : String) : Shape :=
  match argument.toList with
  | ['-', '-'] => .separator
  | '-' :: '-' :: s => longShape flags s
  | '-' :: c :: s => shortShape flags c s
  | _ => .operand

def isValue (argument : String) : Bool :=
  match argument.toList with
  | '-' :: _ :: _ => false
  | _ => true

def arguments? (flags : List Flag) : List String → Option Arguments
  | [] => some {}
  | a :: rest =>
    match shape flags a with
    | .operand => (arguments? flags rest).map (·.withOperand a)
    | .separator => some { operands := rest }
    | .help => some { help := true }
    | .option name (some value) => (arguments? flags rest).map (·.withOption name value)
    | .option name none =>
      match rest with
      | value :: rest =>
        if isValue value then (arguments? flags rest).map (·.withOption name value) else none
      | [] => none
    | .unknown => none

namespace Arguments

def values (a : Arguments) (name : String) : List String :=
  a.options.filterMap fun (n, v) => if n = name then some v else none

/-- The value of an option that is given at most once. -/
def value? (a : Arguments) (name : String) : Option (Option String) :=
  match a.values name with
  | [] => some none
  | [v] => some (some v)
  | _ => none

end Arguments

end FormulaDrawing.CommandLine
