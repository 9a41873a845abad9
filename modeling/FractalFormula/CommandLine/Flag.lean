namespace FractalFormula

/-- The options of the command line. -/
inductive Flag where
  | math | bitshift | fn1 | fn2 | fn3 | fn4 | p1 | p2 | p3 | p4 | p5 | pixel | col | row
  | iterations | maxIt | seed | explain
  | dump | json | classic | quietSymmetry | list | verbose | version | help
  deriving DecidableEq, Repr

namespace Flag

def all : List Flag :=
  [.math, .bitshift, .fn1, .fn2, .fn3, .fn4, .p1, .p2, .p3, .p4, .p5, .pixel, .col, .row,
   .iterations, .maxIt, .seed, .explain, .dump, .json, .classic, .quietSymmetry, .list, .verbose,
   .version, .help]

/-- The word after the two hyphens. -/
def name : Flag → String
  | .math => "math"
  | .bitshift => "bitshift"
  | .fn1 => "fn1"
  | .fn2 => "fn2"
  | .fn3 => "fn3"
  | .fn4 => "fn4"
  | .p1 => "p1"
  | .p2 => "p2"
  | .p3 => "p3"
  | .p4 => "p4"
  | .p5 => "p5"
  | .pixel => "pixel"
  | .col => "col"
  | .row => "row"
  | .iterations => "iterations"
  | .maxIt => "maxit"
  | .seed => "seed"
  | .explain => "explain"
  | .dump => "dump"
  | .json => "json"
  | .classic => "classic"
  | .quietSymmetry => "quiet-symmetry"
  | .list => "list"
  | .verbose => "verbose"
  | .version => "version"
  | .help => "help"

def find? (name : String) : Option Flag :=
  all.find? (·.name == name)

/-- The options that a single letter stands for. -/
def ofLetter? : Char → Option Flag
  | 'v' => some .verbose
  | 'V' => some .version
  | 'h' => some .help
  | _ => none

/-- The options that are switched on without a value. -/
def isSwitch : Flag → Bool
  | .dump | .json | .classic | .quietSymmetry | .list | .verbose | .version | .help => true
  | _ => false

/-- Points of the plane begin with a hyphen as often as not, so theirs are values too. -/
def takesHyphen : Flag → Bool
  | .p1 | .p2 | .p3 | .p4 | .p5 | .pixel => true
  | _ => false

/-- Only verbosity adds up. -/
def isRepeatable (f : Flag) : Bool :=
  f == .verbose

theorem mem_all (f : Flag) : f ∈ all := by
  cases f <;> decide

theorem find?_name (f : Flag) : find? f.name = some f := by
  cases f <;> decide

end Flag
end FractalFormula
