import AccessDepth.Yaml.Block
import AccessDepth.Yaml.Plain
import AccessDepth.Yaml.Quoted
import AccessDepth.Yaml.Value

/-!
# AccessDepth.Yaml.Writer

Writing a text so that it reads back as itself.

* `Yaml.writeText` — what follows the colon of a key: a text without quotes if it would be read as
  nothing else, in lines of its own if it holds a line feed, and otherwise in quotes.
-/

namespace AccessDepth
namespace Yaml

/-- How many columns the lines of a text are indented. -/
def textIndent : Nat := 2

/-- Whether a text without quotes would be read as nothing, as a truth value or as a number, or
looks like one. -/
def meansMore (text : String) : Bool :=
  text = "" || nullWords.contains text || truthWords.contains text || Number.isRead text ||
    Number.isZeroLed text.toList

/-- Whether a text may be written between single quotes: no blank touches a line break. -/
def canQuoteSingle : List Char → Bool
  | c :: d :: cs =>
    !(c = ' ' && isBreak d) && !(isBreak c && d = ' ') && canQuoteSingle (d :: cs)
  | _ => true

/-- A text in the line of its key, or in double quotes if nothing else will do. -/
def writeInLine (text : String) : List Char :=
  let cs := text.toList
  let written :=
    if !meansMore text && cs.all isPrintable && Plain.canWrite cs then cs
    else if cs.all isPrintable && canQuoteSingle cs then
      Quoted.single (List.replicate textIndent ' ') cs
    else Quoted.double cs
  written ++ ['\n']

def writeText (text : String) : String :=
  let cs := text.toList
  String.ofList <| ' ' ::
    if !cs.contains '\n' then writeInLine text
    else if cs.all isPrintable && Block.canWrite cs then Block.literal textIndent cs
    else Quoted.double cs ++ ['\n']

end Yaml
end AccessDepth
