import Mmdata.Lib.Lines
import Mmdata.Kcfg.Json
import Mmdata.Image.Builder

namespace Mmdata.Image
open Lib Kcfg

def newline : UInt8 := 10

/-- The lines that `while (std::getline(file, line))` gets of a file. -/
def getLines (file : Chars) : List Chars := linesOf newline file

section

variable {α : Type} (writeToJsonString : α → Chars)

/-- The row of an element: `json.c_str()`. -/
def rowOf (e : α) : Chars := (cStr (writeToJsonString e)).chars

/-- `fprintf(f, "%s\n", json.c_str())` for one element after the other. -/
def printRows : List α → Chars → Chars
  | [], file => file
  | e :: v, file => printRows v (file ++ (rowOf writeToJsonString e ++ [newline]))

/-- `WriteListToJson`, where `file` is what is in the file, if it can be opened. -/
def writeListToJson (opens : Bool) (v : List α) (append : Bool) (file : Chars) : Int × Chars :=
  if opens then (0, printRows writeToJsonString v (if append then file else []))
  else (-1, file)

/-- Lists that are written to a file one after the other. -/
def writeLists : List (List α) → Chars → Chars
  | [], file => file
  | v :: vs, file => writeLists vs (writeListToJson writeToJsonString true v true file).2

end

end Mmdata.Image
