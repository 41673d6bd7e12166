import Dalvik.Listing.Printer
import Dalvik.Optimization

/-!
The command line: a class is read from a listing, its methods are optimized one after the other, and
the class is written again with a report of the changes.
-/

namespace Dalvik.CommandLine

/-- A language of patterns: in which texts a text is found as a pattern, if it is one. -/
abbrev Patterns := String → Option (String → Bool)

/-- The language without operators. Every text is a pattern and is found in what it is a part of.
Languages with operators agree with it on the patterns that have none. -/
def Patterns.literal : Patterns := fun part =>
  some fun text => (Text.cutAt? part.toList text.toList).isSome

/-- What is asked for. -/
structure Options where
  input : String
  output : Option String := none
  /-- Of every method, the most sweeps after one execution from its start. -/
  maxSweeps : Nat := 100
  /-- Whether assignments that are never read are removed. -/
  removeWeak : Bool := false
  limits : Limits := {}
  /-- Which of the methods are optimized, by their references. -/
  selection : Option (String → Bool) := none

/-- What is wrong with a list of arguments. -/
inductive UsageError where
  | unknown (word : String)
  | repeated (name : String)
  | missingValue (name : String)
  | badValue (name value : String)
  | missingInput
  deriving DecidableEq, Repr

/-- The wording of a usage error. -/
def UsageError.message : UsageError → String
  | unknown word => "error: unexpected argument `" ++ word ++ "`"
  | repeated name => "error: `--" ++ name ++ "` is given more than once"
  | missingValue name => "error: `--" ++ name ++ "` takes a value"
  | badValue name value => "error: `" ++ value ++ "` is no value of `--" ++ name ++ "`"
  | missingInput => "error: the input path is missing"

/-- An argument: a path, a switch, or an option with its value. -/
inductive Argument where
  | path (text : String)
  | switch (name : String)
  | setting (name value : String)
  deriving DecidableEq, Repr

/-- The options that take no value. -/
def switches : List String := ["remove-weak"]

/-- Reads words as arguments. A value follows its option as the next word or after an equals sign, and
only paths follow two dashes that stand alone. -/
def arguments : List String → Except UsageError (List Argument)
  | [] => .ok []
  | word :: rest =>
    match Text.dropLead? "--".toList word.toList with
    | none => (arguments rest).map (Argument.path word :: ·)
    | some [] => .ok (rest.map .path)
    | some body =>
      match Text.cutAt? ['='] body with
      | some (name, value) =>
        (arguments rest).map (Argument.setting (String.ofList name) (String.ofList value) :: ·)
      | none =>
        let name := String.ofList body
        if name ∈ switches then (arguments rest).map (Argument.switch name :: ·)
        else
          match rest with
          | [] => .error (.missingValue name)
          | value :: rest => (arguments rest).map (Argument.setting name value :: ·)

/-- The number that is the value of an option. -/
def number (name value : String) : Except UsageError Nat :=
  match Text.unsigned? 0x10000000000000000 value.toList with
  | some n => .ok n
  | none => .error (.badValue name value)

namespace Options

/-- The options after an argument that is no path. -/
def set (patterns : Patterns) (o : Options) : Argument → Except UsageError Options
  | .path _ => .ok o
  | .switch _ => .ok { o with removeWeak := true }
  | .setting "max-sweeps" v => (number "max-sweeps" v).map fun n => { o with maxSweeps := n }
  | .setting "max-nodes" v =>
    (number "max-nodes" v).map fun n => { o with limits := { o.limits with maxNodes := n } }
  | .setting "max-address-visits" v =>
    (number "max-address-visits" v).map fun n => { o with limits := { o.limits with maxVisits := n } }
  | .setting "max-call-depth" v =>
    (number "max-call-depth" v).map fun n => { o with limits := { o.limits with maxDepth := n } }
  | .setting "include" v =>
    match patterns v with
    | some selection => .ok { o with selection := some selection }
    | none => .error (.badValue "include" v)
  | .setting name _ => .error (.unknown ("--" ++ name))

/-- The options that a list of arguments asks for. -/
def ofArguments (patterns : Patterns) (args : List Argument) : Except UsageError Options := do
  let paths := args.filterMap fun
    | .path p => some p
    | _ => none
  let names := args.filterMap fun
    | .path _ => none
    | .switch name => some name
    | .setting name _ => some name
  match names.find? fun name => 1 < names.count name with
  | some name => throw (.repeated name)
  | none =>
    match paths with
    | [] => throw .missingInput
    | [input] => args.foldlM (set patterns) { input }
    | [input, output] => args.foldlM (set patterns) { input, output := some output }
    | _ :: _ :: word :: _ => throw (.unknown word)

/-- The options that the words of a command line ask for, in a language of patterns. -/
def readWith (patterns : Patterns) (words : List String) : Except UsageError Options := do
  ofArguments patterns (← arguments words)

/-- The options that the words of a command line ask for, where patterns have no operators. -/
def read (words : List String) : Except UsageError Options := readWith .literal words

/-- Whether a method is to be optimized. -/
def selects (o : Options) (m : MethodReference) : Bool := o.selection.all (· m.text)

end Options

/-- The classes as far as they are optimized, the changes made so far, and the report on them. -/
structure Progress where
  classes : Classes
  total : Counts
  report : String
  deriving DecidableEq, Repr

/-- The report on a method. -/
def methodReport (m : MethodReference) (counts : Counts) : String :=
  m.text ++ "\n  Optimizations: " ++ counts.text ++ "\n"

/-- The method with a reference, if there is anything to optimize in it. -/
def subject? (o : Options) (cs : Classes) (m : MethodReference) : Option Method :=
  if o.selects m then (cs.method? m).filter fun method => !method.code.isEmpty else none

/-- Optimizes a method. One that cannot be optimized is left as it is, without a word, unless the error
ends the program. -/
def advance (o : Options) (p : Progress) (m : MethodReference) : Except (Progress × Error) Progress :=
  match subject? o p.classes m with
  | none => .ok p
  | some method =>
    match Machine.optimize ⟨p.classes, o.limits⟩ o.removeWeak o.maxSweeps method with
    | .error e =>
      match e.cause?.filter Error.isFatal with
      | some e => .error (p, e)
      | none => .ok p
    | .ok (method, counts) => .ok
        { classes := p.classes.update method
          total := p.total.add counts
          report := p.report ++ methodReport m counts }

/-- What a run of the program ends with: its exit code, the listing of the class, and what is
reported. -/
structure Result where
  code : UInt8
  listing : String
  report : String
  deriving DecidableEq, Repr

/-- The wording of a failure with its cause. -/
def failure (what cause : String) : String :=
  "error: " ++ what ++ "\n\nCaused by:\n    " ++ cause ++ "\n"

/-- The end of the program at an error. -/
def stop (report : String) (e : Error) : Result :=
  ⟨101, "", report ++ "error: " ++ e.message ++ "\n"⟩

/-- Optimizes the class that a listing is of. -/
def run (o : Options) (listing : String) : Result :=
  match ClassDefinition.read listing with
  | .error e =>
    if e.isFatal then stop "" e
    else ⟨1, "", failure "could not parse the input class" e.message⟩
  | .ok c =>
    let start : Progress := ⟨Classes.empty.insert c, .empty, ""⟩
    match (c.methods.map Method.reference).foldlM (advance o) start with
    | .error (p, e) => stop p.report e
    | .ok p =>
      let optimized := (p.classes.find? c.name).getD c
      ⟨0, optimized.listing, p.report ++ "Total optimizations: " ++ p.total.text ++ "\n"⟩

end Dalvik.CommandLine
