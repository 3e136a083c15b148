import ExprLang.Grammar

/-!
# Options

The arguments behind a command: the grammar, names with the texts that are
evaluated for them, the mode, and where the source text comes from.
-/

namespace ExprLang

/-- Where the source text comes from. -/
inductive Input where
  | file (path : String)
  | inline (text : String)
  | stdin
  deriving DecidableEq, Inhabited

/-- What a command is told to do. -/
structure Options where
  /-- Name of the rule set to start in. -/
  grammar : String := Grammar.defaultName
  /-- Names with the texts of their values, in order. -/
  sets : List (String × String) := []
  /-- Are unknown names left as they are? -/
  partly : Bool := false
  /-- The input, unless none is named. -/
  explicit : Option Input := none
  deriving DecidableEq, Inhabited

namespace Options

/-- Where the source text comes from: the standard input if nothing is said. -/
def input (options : Options) : Input :=
  options.explicit.getD .stdin

/-- Why arguments are refused. -/
inductive Error where
  | missingValue (flag : String)
  | badAssignment (text : String)
  | unknownFlag (text : String)
  | extraInput (text : String)
  deriving DecidableEq, Inhabited

/-- The wording of a refusal. -/
def Error.message : Error → String
  | missingValue flag => "missing value after '" ++ flag ++ "'"
  | badAssignment text => "expected name=value after --set, found '" ++ text ++ "'"
  | unknownFlag text => "unknown option '" ++ text ++ "'"
  | extraInput text => "unexpected argument '" ++ text ++ "'"

/-- The start of the argument that names a grammar. -/
def grammarFlag : String := "--grammar="

/-- A name and the text of its value, joined by the first equals sign. -/
def splitAssignment? (text : String) : Option (String × String) :=
  let name := text.toList.takeWhile (· != '=')
  match name, text.toList.drop name.length with
  | [], _ | _, [] => none
  | name, _ :: value => some (String.ofList name, String.ofList value)

/-- Sets the input, which can be done once; `argument` is the one that does it. -/
def setInput (options : Options) (input : Input) (argument : String) : Except Error Options :=
  match options.explicit with
  | some _ => .error (.extraInput argument)
  | none => .ok { options with explicit := some input }

/-- Takes an argument that stands for itself. -/
def takeArgument (options : Options) (argument : String) : Except Error Options :=
  match Text.dropHead? grammarFlag.toList argument.toList with
  | some name => .ok { options with grammar := String.ofList name }
  | none =>
      if argument = "--partial" then .ok { options with partly := true }
      else if argument = "-" then options.setInput .stdin argument
      else if Text.startsWith ['-'] argument.toList then .error (.unknownFlag argument)
      else options.setInput (.file argument) argument

/-- Takes an assignment. -/
def takeAssignment (options : Options) (text : String) : Except Error Options :=
  match splitAssignment? text with
  | none => .error (.badAssignment text)
  | some assignment => .ok { options with sets := options.sets ++ [assignment] }

/-- Takes arguments in order. -/
def takeAll (options : Options) : List String → Except Error Options
  | [] => .ok options
  | argument :: rest =>
      if argument = "--set" then
        match rest with
        | [] => .error (.missingValue argument)
        | text :: rest => (options.takeAssignment text).bind fun options => takeAll options rest
      else if argument = "-e" then
        match rest with
        | [] => .error (.missingValue argument)
        | text :: rest =>
            (options.setInput (.inline text) argument).bind fun options => takeAll options rest
      else
        (options.takeArgument argument).bind fun options => takeAll options rest

/-- The options that arguments stand for. -/
def parse (arguments : List String) : Except Error Options :=
  takeAll {} arguments

end Options
end ExprLang
