import Statechart.Json.Reader
import Statechart.Json.Record
import Statechart.Json.Writer
import Statechart.Options

/-!
Options as JSON texts. A missing option has its default; the text is written on one line.
-/
namespace Statechart.Options

def toJson (options : Options) : Json :=
  .object [(some "debugger_display", .bool options.labelled)]

def ofJson? (document : Json) : Option Options :=
  match document.fields? ["debugger_display"] with
  | some [none] => some {}
  | some [some (.bool labelled)] => some { labelled }
  | _ => none

def print (options : Options) : String := options.toJson.compact

def parse? (text : String) : Option Options := (Json.parse? text).bind ofJson?

end Statechart.Options
