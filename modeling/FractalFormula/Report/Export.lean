import FractalFormula.Load.Formula
import FractalFormula.Report.Diagnostic
import FractalFormula.Report.Json

/-!
Diagnostics and formulas as JSON, for other programs to read.
-/

namespace FractalFormula

namespace Label

/-- A label comes with its line and column if there is a text that it points into. -/
def toJson (lines : Option Lines) (l : Label) : Report.Json :=
  let (column, line) := match lines with
    | some lines =>
      let (line, column) := lines.locate l.span.start
      ([("col", Report.Json.nat column)], [("line", Report.Json.nat line)])
    | none => ([], [])
  .object <|
    column ++ [("end", .nat l.span.stop)] ++ line
      ++ [("message", .string l.message), ("primary", .bool l.isPrimary),
          ("start", .nat l.span.start)]

end Label

namespace Diagnostic

/-- The members stand in the order of their names.  A code and a suggestion appear only if there are
any. -/
def toJson (d : Diagnostic) : Report.Json :=
  let lines := d.source.map Lines.ofText
  .object <|
    (d.code.map (fun code => ("code", Report.Json.string code.text))).toList
      ++ [("labels", .array (d.labels.map (·.toJson lines))), ("message", .string d.message),
          ("notes", .strings d.notes), ("severity", .string d.severity.name)]
      ++ (d.suggestion.map (fun s => ("suggestion", Report.Json.string s))).toList

end Diagnostic

namespace Complex

/-- A complex number as an array of two. -/
def toPair (z : Complex Float) : Report.Json :=
  .array [.float z.x, .float z.y]

def toJson (z : Complex Float) : Report.Json :=
  .object [("x", .float z.x), ("y", .float z.y)]

end Complex

namespace Slot

def toJson (s : Slot) : Report.Json :=
  .object [("name", .string s.name), ("kind", .string s.kind.name), ("value", s.value.toJson)]

end Slot

namespace JumpEntry

def toJson (e : JumpEntry) : Report.Json :=
  .object
    [("kind", .string e.word.name),
     ("target", .object [("op_ptr", .nat e.target.op), ("loads", .nat e.target.loads),
       ("stores", .nat e.target.stores)]),
     ("dest", .nat e.dest)]

end JumpEntry

namespace Usage

def toJson (u : Usage) : Report.Json :=
  .object
    [("uses_p1", .bool u.p1), ("uses_p2", .bool u.p2), ("uses_p3", .bool u.p3),
     ("uses_p4", .bool u.p4), ("uses_p5", .bool u.p5), ("uses_ismand", .bool u.isMand),
     ("max_fn", .nat u.maxFn), ("uses_jump", .bool u.jumps), ("uses_rand", .bool u.rand)]

end Usage

namespace Program

def toJson (p : Program) : Report.Json :=
  .object
    [("text", .string p.text), ("code", .array (p.code.map (.nat ·.byte))),
     ("slots", .array (p.slots.map Slot.toJson)), ("loads", .array (p.loads.map .nat)),
     ("stores", .array (p.stores.map .nat)), ("jumps", .array (p.jumps.map JumpEntry.toJson)),
     ("has_init", .bool p.hasInit), ("info", p.usage.toJson)]

end Program

namespace Formula

/-- A formula with the choices it was loaded with. -/
def toJson (f : Formula) : Report.Json :=
  .object
    [("name", .string f.header.name), ("symmetry", .string f.header.symmetry.name),
     ("math", .string f.engine.mode.name),
     ("functions", .strings (f.engine.bindings.toList.map Func.name)),
     ("calls", .strings (f.program.calls.map Func.name)), ("info", f.program.usage.toJson),
     ("program", f.program.toJson)]

end Formula
end FractalFormula
