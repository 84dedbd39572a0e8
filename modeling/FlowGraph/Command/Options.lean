/-! The arguments of the command. They are read from left to right. A request
for help or for the version takes effect where it stands; so does an argument
that means nothing. Whether options were repeated, lack a value, or have one
that does not exist is looked at when all arguments have been read. -/
namespace FlowGraph.Command

/-- How graphs are written. -/
inductive Format where
  | dot
  | text
deriving DecidableEq

def Format.ofName? : String → Option Format
  | "dot" => some .dot
  | "text" => some .text
  | _ => none

/-- What a run is asked to do. -/
structure Options where
  /-- The file to read, or standard input. -/
  input : Option String := none
  /-- The file to write, or standard output. -/
  output : Option String := none
  format : Format := .dot
  verify : Bool := false
  time : Bool := false
  oneWorker : Bool := false
  verbosity : Nat := 0
deriving DecidableEq

/-- What the arguments ask for. -/
inductive Request where
  | help (detailed : Bool)
  | version
  | run (options : Options)
deriving DecidableEq

/-- Why the arguments make no sense. -/
inductive Misuse where
  | unknownArgument (argument : String)
  | repeatedOption (name : String)
  | missingValue (name : String)
  | unknownFormat (value : String)
deriving DecidableEq

def Misuse.message : Misuse → String
  | .unknownArgument argument => s!"found argument '{argument}' which was not expected"
  | .repeatedOption name => s!"the argument '{name}' was provided more than once"
  | .missingValue name => s!"the argument '{name}' requires a value but none was supplied"
  | .unknownFormat value => s!"'{value}' is not a format; the formats are dot and text"

/-- Why the reading of arguments ends before the last one. -/
inductive Stop where
  | help (detailed : Bool)
  | version
  | misuse (cause : Misuse)
deriving DecidableEq

/-- An option that takes a value: how often it was given, and its value. -/
structure Setting where
  uses : Nat := 0
  value : Option String := none
deriving DecidableEq

/-- The options that take a value. -/
inductive ValueOption where
  | output
  | format
deriving DecidableEq

/-- The options that do not. -/
inductive Flag where
  | verify
  | time
  | oneWorker
  | verbose
deriving DecidableEq

/-- What has been read so far. -/
structure Scan where
  input : Option String := none
  output : Setting := {}
  format : Setting := {}
  verify : Nat := 0
  time : Nat := 0
  oneWorker : Nat := 0
  verbose : Nat := 0
  /-- The option whose value may come next. -/
  waiting : Option ValueOption := none
  /-- Whether options have been ended by two dashes. -/
  ended : Bool := false
deriving DecidableEq

namespace Scan

def modify (s : Scan) (o : ValueOption) (f : Setting → Setting) : Scan :=
  match o with
  | .output => { s with output := f s.output }
  | .format => { s with format := f s.format }

def raise (s : Scan) : Flag → Scan
  | .verify => { s with verify := s.verify + 1 }
  | .time => { s with time := s.time + 1 }
  | .oneWorker => { s with oneWorker := s.oneWorker + 1 }
  | .verbose => { s with verbose := s.verbose + 1 }

/-- Takes an option with the text attached to it, in which equals signs at the
start do not count. Without any the value may be the next argument. -/
def useOption (s : Scan) (o : ValueOption) : (attached : Option (List Char)) → Scan
  | some text =>
      s.modify o fun setting => ⟨setting.uses + 1, some (String.ofList (text.dropWhile (· == '=')))⟩
  | none =>
      { s.modify o fun setting => { setting with uses := setting.uses + 1 } with waiting := some o }

/-- Takes an argument that is no option. -/
def usePlain (s : Scan) (argument : String) : Except Stop Scan :=
  match s.input with
  | none => .ok { s with input := some argument }
  | some _ => .error (.misuse (.unknownArgument argument))

/-- Takes letters that follow one dash. A letter with a value takes the rest. -/
def useLetters (s : Scan) : List Char → Except Stop Scan
  | [] => .ok s
  | 'o' :: rest => .ok (s.useOption .output (if rest.isEmpty then none else some rest))
  | 'f' :: rest => .ok (s.useOption .format (if rest.isEmpty then none else some rest))
  | 'h' :: _ => .error (.help false)
  | 'V' :: _ => .error .version
  | 's' :: rest => (s.raise .oneWorker).useLetters rest
  | 't' :: rest => (s.raise .time).useLetters rest
  | 'v' :: rest => (s.raise .verbose).useLetters rest
  | c :: _ => .error (.misuse (.unknownArgument (String.ofList ['-', c])))

/-- Takes a word that follows two dashes or more, and what follows its first
equals sign. -/
def useWord (s : Scan) (word : List Char) : Except Stop Scan :=
  let attached := match word.dropWhile (· != '=') with
    | [] => none
    | _ :: text => some text
  match String.ofList (word.takeWhile (· != '=')) with
  | "output" => .ok (s.useOption .output attached)
  | "format" => .ok (s.useOption .format attached)
  | "verify" => .ok (s.raise .verify)
  | "time" => .ok (s.raise .time)
  | "no-parallel" => .ok (s.raise .oneWorker)
  | "help" => .error (.help true)
  | "version" => .error .version
  | name => .error (.misuse (.unknownArgument ("--" ++ name)))

/-- Takes one argument. One dash alone is no option. -/
def step (s : Scan) (argument : String) : Except Stop Scan :=
  if s.ended then s.usePlain argument
  else
    match argument.toList with
    | ['-', '-'] => .ok { s with ended := true, waiting := none }
    | '-' :: '-' :: rest => { s with waiting := none }.useWord (rest.dropWhile (· == '-'))
    | '-' :: c :: rest => { s with waiting := none }.useLetters (c :: rest)
    | _ =>
        match s.waiting with
        | some o =>
            .ok { s.modify o fun setting => { setting with value := some argument } with
              waiting := none }
        | none => s.usePlain argument

/-- What is wrong with the options as a whole. -/
def misuse? (s : Scan) : Option Misuse :=
  if 1 < s.output.uses then some (.repeatedOption "--output")
  else if 1 < s.format.uses then some (.repeatedOption "--format")
  else if 1 < s.verify then some (.repeatedOption "--verify")
  else if 1 < s.time then some (.repeatedOption "--time")
  else if 1 < s.oneWorker then some (.repeatedOption "--no-parallel")
  else if 0 < s.output.uses ∧ s.output.value = none then some (.missingValue "--output")
  else none

/-- The options that were read. A format that was asked for without a value is
the usual one. -/
def finish (s : Scan) : Except Misuse Options :=
  match s.misuse? with
  | some cause => .error cause
  | none =>
      let name := s.format.value.getD "dot"
      match Format.ofName? name with
      | none => .error (.unknownFormat name)
      | some format =>
          .ok {
            input := s.input
            output := s.output.value
            format
            verify := 0 < s.verify
            time := 0 < s.time
            oneWorker := 0 < s.oneWorker
            verbosity := s.verbose }

end Scan

/-- Reads the arguments of the command. -/
def parseArguments (arguments : List String) : Except Misuse Request :=
  match arguments.foldlM Scan.step {} with
  | .error (.help detailed) => .ok (.help detailed)
  | .error .version => .ok .version
  | .error (.misuse cause) => .error cause
  | .ok scan => scan.finish.map .run

end FlowGraph.Command
