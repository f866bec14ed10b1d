import Lookahead.Analysis
import Lookahead.Grammar.Examples

set_option autoImplicit false

namespace Lookahead

namespace Command

structure Options where
  grammar : Option Example
  automaton : Bool
  output : Option String
deriving DecidableEq

inductive Request where
  | dump (options : Options)
  | version
  | help
  | misuse
deriving DecidableEq

inductive Valued where
  | grammar
  | output
deriving DecidableEq

inductive Plain where
  | automaton
  | version
  | help
deriving DecidableEq

def exampleOf? (value : String) : Option Example :=
  Example.all.find? fun e => e.name.map (fun c => if c = '_' then '-' else c) = value

def Options.set? (o : Options) (option : Valued) (value : String) : Option Options :=
  match option, o.grammar, o.output with
  | .grammar, none, _ => (exampleOf? value).map fun e => { o with grammar := some e }
  | .output, _, none => if value = "" then none else some { o with output := some value }
  | _, _, _ => none

def long? (name : List Char) : Option (Valued ⊕ Plain) :=
  match String.ofList name with
  | "grammar" => some (.inl .grammar)
  | "output" => some (.inl .output)
  | "automaton" => some (.inr .automaton)
  | "version" => some (.inr .version)
  | "help" => some (.inr .help)
  | _ => none

inductive Argument where
  | rest
  | plain (option : Plain)
  | valued (option : Valued) (value : String)
  | awaiting (option : Valued)
  | wrong
deriving DecidableEq

def Argument.ofLong (text : List Char) : Argument :=
  match long? (text.takeWhile (· ≠ '=')), text.dropWhile (· ≠ '=') with
  | some (.inl option), [] => .awaiting option
  | some (.inl option), _ :: value => .valued option (String.ofList value)
  | some (.inr option), [] => .plain option
  | _, _ => .wrong

-- Of letters in a row the first one counts: a value takes up the rest, and the version or the help leaves
-- it unread.
def Argument.ofShort : List Char → Argument
  | 'V' :: _ => .plain .version
  | 'h' :: _ => .plain .help
  | ['o'] => .awaiting .output
  | 'o' :: '=' :: value => .valued .output (String.ofList value)
  | 'o' :: value => .valued .output (String.ofList value)
  | _ => .wrong

def Argument.of (arg : String) : Argument :=
  match arg.toList with
  | ['-', '-'] => .rest
  | '-' :: '-' :: text => .ofLong text
  | '-' :: text => .ofShort text
  | _ => .wrong

-- A hyphen in front makes an argument no value, except when it stands alone.
def isValue (arg : String) : Bool := arg = "-" || arg.toList.head? ≠ some '-'

def read (o : Options) : List String → Request
  | [] => .dump o
  | arg :: rest =>
      match Argument.of arg with
      | .plain .version => .version
      | .plain .help => .help
      | .plain .automaton => if o.automaton then .misuse else read { o with automaton := true } rest
      | .valued option value =>
          match o.set? option value with
          | some o' => read o' rest
          | none => .misuse
      | .awaiting option =>
          match rest with
          | [] => .misuse
          | value :: rest' =>
              match if isValue value then o.set? option value else none with
              | some o' => read o' rest'
              | none => .misuse
      | .rest => if rest.isEmpty then .dump o else .misuse
      | .wrong => .misuse

def Request.of (args : List String) : Request := read ⟨none, false, none⟩ args

inductive Effect where
  | print (text : String)
  | write (path text : String)
  | refuse (message : String)
  | fail (message : String)
deriving DecidableEq

def versionText : String := "lalr-layout-cli 0.0.0-dev\n"

def usageText : String := "Usage: lalr-layout [OPTIONS]\n"

def helpText : String :=
  usageText ++ "\nOptions:\n"
  ++ "      --grammar <GRAMMAR>  The reference grammar to annotate [default: arithmetic] "
  ++ "[possible values: expression, arithmetic, with-nullable, nullable-tail, composed, fig1, fig5, fig6]\n"
  ++ "      --automaton          Also dump the LR(0) automaton\n"
  ++ "  -o, --output <OUTPUT>    Specify the path of the dump file. The dump is written to stdout if omitted\n"
  ++ "  -h, --help               Print help\n"
  ++ "  -V, --version            Print version\n"

def dumpOf (o : Options) : Except String String := do
  let g ← (Grammar.define (o.grammar.getD .arithmetic).steps).mapError DefinitionError.message
  let analysis ← g.analysis.mapError Fault.message
  (analysis.dump o.automaton).mapError Fault.message

def Request.effect : Request → Effect
  | .version => .print versionText
  | .help => .print helpText
  | .misuse => .refuse usageText
  | .dump o =>
      match dumpOf o, o.output with
      | .ok text, none => .print text
      | .ok text, some path => .write path text
      | .error message, _ => .fail message

def respond (args : List String) : Effect := (Request.of args).effect

end Command

end Lookahead
