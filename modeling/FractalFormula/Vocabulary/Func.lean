import FractalFormula.Text.Bytes

namespace FractalFormula

/-- The functions a formula can call.  `fn1` to `fn4` stand for functions chosen when the formula is
loaded.  The order is the order of their opcodes. -/
inductive Func where
  | sin | sinh | cos | cosh | sqr | log | exp | abs | conj | real | imag | fn1 | fn2 | fn3 | fn4
  | flip | tan | tanh | cotan | cotanh | cosxx | srand | asin | asinh | acos | acosh | atan
  | atanh | sqrt | cabs | floor | ceil | trunc | round
  deriving DecidableEq, Repr

namespace Func

def all : List Func :=
  [.sin, .sinh, .cos, .cosh, .sqr, .log, .exp, .abs, .conj, .real, .imag, .fn1, .fn2, .fn3, .fn4,
   .flip, .tan, .tanh, .cotan, .cotanh, .cosxx, .srand, .asin, .asinh, .acos, .acosh, .atan,
   .atanh, .sqrt, .cabs, .floor, .ceil, .trunc, .round]

def name : Func → String
  | .sin => "sin"
  | .sinh => "sinh"
  | .cos => "cos"
  | .cosh => "cosh"
  | .sqr => "sqr"
  | .log => "log"
  | .exp => "exp"
  | .abs => "abs"
  | .conj => "conj"
  | .real => "real"
  | .imag => "imag"
  | .fn1 => "fn1"
  | .fn2 => "fn2"
  | .fn3 => "fn3"
  | .fn4 => "fn4"
  | .flip => "flip"
  | .tan => "tan"
  | .tanh => "tanh"
  | .cotan => "cotan"
  | .cotanh => "cotanh"
  | .cosxx => "cosxx"
  | .srand => "srand"
  | .asin => "asin"
  | .asinh => "asinh"
  | .acos => "acos"
  | .acosh => "acosh"
  | .atan => "atan"
  | .atanh => "atanh"
  | .sqrt => "sqrt"
  | .cabs => "cabs"
  | .floor => "floor"
  | .ceil => "ceil"
  | .trunc => "trunc"
  | .round => "round"

/-- The place of a function in the order of the table. -/
def index (f : Func) : Nat :=
  all.idxOf f

def find? (name : String) : Option Func :=
  all.find? (Text.sameName ·.name name)

/-- Which of `fn1` to `fn4` this is, counted from zero. -/
def parameter? : Func → Option Nat
  | .fn1 => some 0
  | .fn2 => some 1
  | .fn3 => some 2
  | .fn4 => some 3
  | _ => none

/-- A parameter stands for one of the other functions, never for a parameter. -/
def bindable (f : Func) : Bool :=
  f.parameter?.isNone

/-- The spelling that error messages about a function use: its name with a capital. -/
def title (f : Func) : String :=
  f.name.capitalize

theorem mem_all (f : Func) : f ∈ all := by
  cases f <;> decide

theorem all_getElem_index (f : Func) : all[f.index]? = some f := by
  cases f <;> decide

end Func

/-- The functions that `fn1` to `fn4` stand for. -/
structure Bindings where
  fn1 : Func := .sin
  fn2 : Func := .sqr
  fn3 : Func := .sinh
  fn4 : Func := .cosh
  deriving DecidableEq, Repr

namespace Bindings

def toList (b : Bindings) : List Func :=
  [b.fn1, b.fn2, b.fn3, b.fn4]

/-- The function that a call runs: a parameter is replaced once, so that a parameter bound to a
parameter is still one. -/
def resolve (b : Bindings) : Func → Func
  | .fn1 => b.fn1
  | .fn2 => b.fn2
  | .fn3 => b.fn3
  | .fn4 => b.fn4
  | f => f

/-- The given functions for the first parameters and the usual ones for the rest. -/
def ofList (fs : List Func) : Bindings :=
  let usual : Bindings := {}
  ⟨fs.getD 0 usual.fn1, fs.getD 1 usual.fn2, fs.getD 2 usual.fn3, fs.getD 3 usual.fn4⟩

/-- The first parameter, counted from one, that is bound to a parameter. -/
def unbindable? (b : Bindings) : Option (Nat × Func) :=
  (b.toList.zipIdx.find? (fun (f, _) => !f.bindable)).map (fun (f, i) => (i + 1, f))

end Bindings
end FractalFormula
