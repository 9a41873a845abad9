import FractalFormula.Text.Bytes

/-!
The words that the formula language reserves: variables that are always there, the words that branch,
and the operators.
-/

namespace FractalFormula

/-- The variables that every formula finds in place, in the order of their slots. -/
inductive Builtin where
  | pixel | p1 | p2 | z | lastSqr | pi | e | rand | p3 | whiteSq | scrnPix | scrnMax | maxIt
  | isMand | center | magXMag | rotSkew | p4 | p5
  deriving DecidableEq, Repr

namespace Builtin

def all : List Builtin :=
  [.pixel, .p1, .p2, .z, .lastSqr, .pi, .e, .rand, .p3, .whiteSq, .scrnPix, .scrnMax, .maxIt,
   .isMand, .center, .magXMag, .rotSkew, .p4, .p5]

def name : Builtin → String
  | .pixel => "pixel"
  | .p1 => "p1"
  | .p2 => "p2"
  | .z => "z"
  | .lastSqr => "lastsqr"
  | .pi => "pi"
  | .e => "e"
  | .rand => "rand"
  | .p3 => "p3"
  | .whiteSq => "whitesq"
  | .scrnPix => "scrnpix"
  | .scrnMax => "scrnmax"
  | .maxIt => "maxit"
  | .isMand => "ismand"
  | .center => "center"
  | .magXMag => "magxmag"
  | .rotSkew => "rotskew"
  | .p4 => "p4"
  | .p5 => "p5"

/-- Slot `i` of a program belongs to the `i`-th variable of the table. -/
def slot (v : Builtin) : Nat :=
  all.idxOf v

def find? (name : String) : Option Builtin :=
  all.find? (Text.sameName ·.name name)

/-- The variables whose values a user is asked for. -/
def isParameter : Builtin → Bool
  | .p1 | .p2 | .p3 | .p4 | .p5 | .isMand => true
  | _ => false

theorem mem_all (v : Builtin) : v ∈ all := by
  cases v <;> decide

theorem all_getElem_slot (v : Builtin) : all[v.slot]? = some v := by
  cases v <;> decide

theorem slot_lt (v : Builtin) : v.slot < all.length := by
  cases v <;> decide

end Builtin

/-- The words that branch. -/
inductive FlowWord where
  | «if» | elseIf | «else» | endIf
  deriving DecidableEq, Repr

namespace FlowWord

def all : List FlowWord :=
  [.if, .elseIf, .else, .endIf]

def name : FlowWord → String
  | .if => "if"
  | .elseIf => "elseif"
  | .else => "else"
  | .endIf => "endif"

/-- The spelling that error messages about a branch use. -/
def title : FlowWord → String
  | .if => "If"
  | .elseIf => "ElseIf"
  | .else => "Else"
  | .endIf => "EndIf"

def find? (name : String) : Option FlowWord :=
  all.find? (Text.sameName ·.name name)

/-- These two are followed by a condition in parentheses. -/
def takesCondition : FlowWord → Bool
  | .if | .elseIf => true
  | .else | .endIf => false

end FlowWord

/-- The operators and separators. -/
inductive Operator where
  | comma | ne | assign | eq | lt | le | gt | ge | modulus | or | and | colon | plus | minus
  | star | slash | caret
  deriving DecidableEq, Repr

namespace Operator

def all : List Operator :=
  [.comma, .ne, .assign, .eq, .lt, .le, .gt, .ge, .modulus, .or, .and, .colon, .plus, .minus,
   .star, .slash, .caret]

def symbol : Operator → String
  | .comma => ","
  | .ne => "!="
  | .assign => "="
  | .eq => "=="
  | .lt => "<"
  | .le => "<="
  | .gt => ">"
  | .ge => ">="
  | .modulus => "|"
  | .or => "||"
  | .and => "&&"
  | .colon => ":"
  | .plus => "+"
  | .minus => "-"
  | .star => "*"
  | .slash => "/"
  | .caret => "^"

def find? (symbol : String) : Option Operator :=
  all.find? (·.symbol == symbol)

/-- A comma ends a statement; a colon ends a statement and the init section with it. -/
def endsStatement : Operator → Bool
  | .comma | .colon => true
  | _ => false

end Operator

end FractalFormula
