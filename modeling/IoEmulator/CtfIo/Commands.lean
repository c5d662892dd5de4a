import IoEmulator.CtfIo.Perform
import IoEmulator.Termctl.Command

/-!
# The commands of the io test program

`make_help_command`, `make_get_command`, `make_set_command` and
`make_info_command`. The last three execute on the parser as it is at the time,
which they share, while their parameter completion is a copy of the item keys
taken when they are made.
-/

namespace IoEmulator.CtfIo

open Conf Termctl Foundation.Enumeration

variable {σ F : Type}

/-- What the commands act on: the shared parser and the IO layer. -/
structure World (σ : Type) where
  parser : IoParser
  io : σ

/-- `std::bind` of a `perform_command_*` function to the shared parser. -/
def bindParser (command : List Text → IoParser → σ → Performed σ) : Execution (World σ) :=
  fun args w =>
    let r := command args w.parser w.io
    { world := { w with io := r.io }
      printed := r.printed.map Report.line
      outcome := r.outcome }

/-- The lines of `make_help_command`. -/
def helpLines : List Line := [
  .out (lit "Available commands:"),
  .out (lit "  get  <module>                get the value of <module>"),
  .out (lit "  set  <module>|pr/pw <value>  set <module> or <pr/pw> to <value>"),
  .out (lit "  info <module>|all            get the information of <module>"),
  .out (lit "  help                         display help text"),
  .out (lit "  exit                         quit")]

/-- `make_help_command`. -/
def makeHelpCommand (order : IterationOrder Text) : BasicCommand (World σ) :=
  .make order (lit "help") (some fun _ w => { world := w, printed := helpLines }) ∅

variable (P : Platform σ F) (order : IterationOrder Text)

/-- `make_get_command`. -/
def makeGetCommand (parser : IoParser) : BasicCommand (World σ) :=
  .make order (lit "get") (some (bindParser (performCommandGet P))) parser.itemKeys

/-- `make_set_command`. -/
def makeSetCommand (parser : IoParser) : BasicCommand (World σ) :=
  .make order (lit "set") (some (bindParser (performCommandSet P))) parser.itemKeys

/-- `make_info_command`. -/
def makeInfoCommand (parser : IoParser) : BasicCommand (World σ) :=
  .make order (lit "info") (some (bindParser (performCommandInfo order))) parser.itemKeys

end IoEmulator.CtfIo
