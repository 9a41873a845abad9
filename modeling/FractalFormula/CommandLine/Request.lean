import FractalFormula.CommandLine.Flag
import FractalFormula.Decimal.Reader
import FractalFormula.Load.Formula

/-!
What a command line asks for.  Arguments are read from left to right, and the first one that is
wrong, or that asks for the version or for help, ends the reading.
-/

namespace FractalFormula

/-- A command line that is in order. -/
structure Request where
  file : Option String := none
  name : Option String := none
  settings : Settings := {}
  /-- The seed of `rand`; without one every run has its own. -/
  seed : Option UInt64 := none
  pixel : Pixel := { coord := ⟨0, 0⟩ }
  iterations : Nat := 10
  dump : Bool := false
  json : Bool := false
  classic : Bool := false
  list : Bool := false
  explain : Option String := none

/-- Why a command line is not carried out. -/
inductive Refusal where
  /-- Something in it is wrong. -/
  | usage
  | version
  | help
  deriving DecidableEq, Repr

/-! ## Values -/

namespace Text

/-- The code points that Unicode calls white space. -/
def spaces : List Nat :=
  [0x0009, 0x000a, 0x000b, 0x000c, 0x000d, 0x0020, 0x0085, 0x00a0, 0x1680, 0x2000, 0x2001, 0x2002,
   0x2003, 0x2004, 0x2005, 0x2006, 0x2007, 0x2008, 0x2009, 0x200a, 0x2028, 0x2029, 0x202f, 0x205f,
   0x3000]

def isSpace (c : Char) : Bool :=
  spaces.contains c.toNat

/-- The characters between the first and the last that is not white space. -/
def trim (chars : List Char) : List Char :=
  ((chars.dropWhile isSpace).reverse.dropWhile isSpace).reverse

end Text

namespace Request

/-- A whole number below `bound`.  A sign may stand before it, but a minus sign only if `signed`
holds, and then only before zero. -/
def natBelow? (bound : Nat) (signed : Bool) (value : String) : Option Nat :=
  let number? (digits : List Char) : Option Nat :=
    if digits.isEmpty || !digits.all Char.isDigit then none
    else
      let n := Decimal.natOfDigits digits
      if n < bound then some n else none
  match value.toList with
  | '+' :: digits => number? digits
  | '-' :: digits => if signed then (number? digits).filter (· == 0) else none
  | digits => number? digits

/-- A number of 32 bits. -/
def word? (value : String) : Option Nat :=
  natBelow? 0x100000000 true value

/-- A point, or a real number without a comma.  Blanks around the parts do not count. -/
def point? (value : String) : Option (Complex Float) :=
  let chars := value.toList
  let part? (cs : List Char) : Option Float := Decimal.read? (Text.trim cs)
  match chars.dropWhile (· != ',') with
  | [] => (part? chars).map (⟨·, 0⟩)
  | _ :: rest => do
    let x ← part? (chars.takeWhile (· != ','))
    let y ← part? rest
    return ⟨x, y⟩

/-! ## Options -/

/-- Takes over a function, if the word is the name of one. -/
def bind? (r : Request) (word : String) (set : Bindings → Func → Bindings) : Option Request :=
  (Func.find? word).map fun f =>
    { r with settings := { r.settings with bindings := set r.settings.bindings f } }

/-- Takes over the value of the parameter with number `n`. -/
def setParam? (r : Request) (word : String) (n : Nat) : Option Request :=
  (point? word).map fun z =>
    { r with settings := { r.settings with environment := r.settings.environment.setParam n z } }

/-- Takes over the value of an option, if it is one for this option. -/
def assign (r : Request) (f : Flag) (value : String) : Option Request :=
  let s := r.settings
  match f with
  | .math => (Mode.find? value).map fun mode => { r with settings := { s with mode } }
  | .bitshift => (word? value).map fun shift => { r with settings := { s with shift } }
  | .fn1 => r.bind? value fun b f => { b with fn1 := f }
  | .fn2 => r.bind? value fun b f => { b with fn2 := f }
  | .fn3 => r.bind? value fun b f => { b with fn3 := f }
  | .fn4 => r.bind? value fun b f => { b with fn4 := f }
  | .p1 => r.setParam? value 1
  | .p2 => r.setParam? value 2
  | .p3 => r.setParam? value 3
  | .p4 => r.setParam? value 4
  | .p5 => r.setParam? value 5
  | .pixel => (point? value).map fun coord => { r with pixel := { r.pixel with coord } }
  | .col => (word? value).map fun col => { r with pixel := { r.pixel with col } }
  | .row => (word? value).map fun row => { r with pixel := { r.pixel with row } }
  | .iterations => (word? value).map fun iterations => { r with iterations }
  | .maxIt => (word? value).map fun n =>
    { r with settings := { s with environment := { s.environment with maxIterations := n } } }
  | .seed =>
    (natBelow? 0x10000000000000000 false value).map fun n => { r with seed := some (.ofNat n) }
  | .explain => some { r with explain := some value }
  | _ => none

/-- Switches an option on. -/
def switch (r : Request) (f : Flag) : Except Refusal Request :=
  match f with
  | .dump => .ok { r with dump := true }
  | .json => .ok { r with json := true }
  | .classic => .ok { r with classic := true }
  | .quietSymmetry => .ok { r with settings := { r.settings with reportSymmetry := false } }
  | .list => .ok { r with list := true }
  | .verbose => .ok r
  | .version => .error .version
  | .help => .error .help
  | _ => .error .usage

/-- Takes the file, and after it the name of the formula. -/
def positional (r : Request) (arg : String) : Except Refusal Request :=
  match r.file, r.name with
  | none, _ => if arg.isEmpty then .error .usage else .ok { r with file := some arg }
  | some _, none => .ok { r with name := some arg }
  | some _, some _ => .error .usage

/-! ## Arguments -/

/-- The request as far as it has been read, and the options met in it. -/
structure Reading where
  request : Request := {}
  given : List Flag := []

namespace Reading

/-- Notes that an option has been met; most may be given once only. -/
def note (r : Reading) (f : Flag) : Except Refusal Reading :=
  if r.given.contains f && !f.isRepeatable then .error .usage
  else .ok { r with given := f :: r.given }

def assign (r : Reading) (f : Flag) (value : String) : Except Refusal Reading := do
  let r ← r.note f
  match r.request.assign f value with
  | some request => return { r with request }
  | none => .error .usage

def switch (r : Reading) (f : Flag) : Except Refusal Reading := do
  let r ← r.note f
  return { r with request := ← r.request.switch f }

def positional (r : Reading) (arg : String) : Except Refusal Reading := do
  return { r with request := ← r.request.positional arg }

def switchLetter (r : Reading) (c : Char) : Except Refusal Reading :=
  match Flag.ofLetter? c with
  | some f => r.switch f
  | none => .error .usage

/-- A hyphen alone is not an option. -/
def looksLikeOption (arg : String) : Bool :=
  match arg.toList with
  | '-' :: _ :: _ => true
  | _ => false

/-- What an argument is before it is known what it means. -/
inductive Shape where
  /-- The two hyphens after which everything is positional. -/
  | bare
  /-- An option by its name, and the value after an equals sign. -/
  | named (name : String) (value : Option String)
  /-- Options by their letters. -/
  | letters (cs : List Char)
  | positional

def shape (arg : String) : Shape :=
  match arg.toList with
  | ['-', '-'] => .bare
  | '-' :: '-' :: cs =>
    let name := String.ofList (cs.takeWhile (· != '='))
    match cs.dropWhile (· != '=') with
    | [] => .named name none
    | _ :: value => .named name (some (String.ofList value))
  | '-' :: c :: cs => .letters (c :: cs)
  | _ => .positional

/-- Reads arguments up to the last one; all of them are positional if `bare` holds. -/
def finish (r : Reading) (bare : Bool) : List String → Except Refusal Request
  | [] => .ok r.request
  | arg :: rest =>
    if bare then do
      finish (← r.positional arg) true rest
    else
      match shape arg with
      | .bare => finish r true rest
      | .positional => do finish (← r.positional arg) false rest
      | .letters cs => do finish (← cs.foldlM switchLetter r) false rest
      | .named name value =>
        match Flag.find? name, value, rest with
        | none, _, _ => .error .usage
        | some f, some value, rest =>
          if f.isSwitch then .error .usage else do finish (← r.assign f value) false rest
        | some f, none, [] =>
          if f.isSwitch then do finish (← r.switch f) false [] else .error .usage
        | some f, none, value :: rest =>
          if f.isSwitch then do finish (← r.switch f) false (value :: rest)
          else if looksLikeOption value && !f.takesHyphen then .error .usage
          else do finish (← r.assign f value) false rest

end Reading

/-- What the arguments ask for. -/
def ofArguments (args : List String) : Except Refusal Request :=
  Reading.finish {} false args

end Request
end FractalFormula
