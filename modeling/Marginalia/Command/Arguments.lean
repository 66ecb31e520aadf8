/-
  Marginalia/Command/Arguments.lean
  =================================
  **Command line arguments.**  Options and words may come in any order.  An option
  that takes a value has it after an equals sign or as the next argument, whatever
  that is; two dashes alone end the options.  What is not known as an option makes
  the command line unusable.
-/
import Marginalia.Text.Search

namespace Marginalia.Command

open Marginalia.Text

/-- What an option takes. -/
inductive Takes where
  | nothing
  | value
  deriving DecidableEq, Repr

/-- The options of a command line with their values, and the words that are not options. -/
structure Arguments where
  options : List (String × String) := []
  words : List String := []
  deriving DecidableEq, Repr

/-- The option is given. -/
def Arguments.has (a : Arguments) (name : String) : Bool := a.options.any (·.1 == name)

/-- All values of an option in order. -/
def Arguments.all (a : Arguments) (name : String) : List String :=
  (a.options.filter (·.1 == name)).map Prod.snd

/-- The last value of an option. -/
def Arguments.last? (a : Arguments) (name : String) : Option String := (a.all name).getLast?

/-- One more option in front. -/
def Arguments.withOption (name value : String) (a : Arguments) : Arguments :=
  { a with options := (name, value) :: a.options }

/-- One more word in front. -/
def Arguments.withWord (word : String) (a : Arguments) : Arguments :=
  { a with words := word :: a.words }

/-- An argument that must be an option: a dash and something after it. -/
def looksLikeOption (arg : String) : Bool := startsWith ['-'] arg.toList && 1 < arg.length

/-- The name of an option and the value that an equals sign gives it. -/
def nameAndValue (arg : String) : String × Option String :=
  match cut? ['='] arg.toList with
  | some (name, value) => (String.ofList name, some (String.ofList value))
  | none => (arg, none)

/-- Sorts a command line into options and words. -/
def readArguments (known : String → Option Takes) : List String → Option Arguments
  | [] => some {}
  | arg :: rest =>
    if arg = "--" then some { words := rest }
    else if looksLikeOption arg then
      let (name, value) := nameAndValue arg
      match known name, value with
      | none, _ => none
      | some .nothing, some _ => none
      | some .nothing, none => (readArguments known rest).map (·.withOption name "")
      | some .value, some v => (readArguments known rest).map (·.withOption name v)
      | some .value, none =>
        match rest with
        | [] => none
        | v :: rest => (readArguments known rest).map (·.withOption name v)
    else (readArguments known rest).map (·.withWord arg)

end Marginalia.Command
