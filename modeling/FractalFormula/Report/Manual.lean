import FractalFormula.Report.ErrorCode

/-!
The manual: for each error code an article that says what went wrong and, where a few lines show it,
gives them before and after they are mended.
-/

namespace FractalFormula

/-- Lines of a formula with an error and without it. -/
structure Sample where
  faulty : List String
  mended : List String

/-- What the manual says under a code. -/
structure Article where
  explanation : String
  sample : Option Sample

namespace Article

def plain (explanation : String) : Article :=
  ⟨explanation, none⟩

def withSample (explanation : String) (faulty mended : List String) : Article :=
  ⟨explanation, some ⟨faulty, mended⟩⟩

/-- The lines of a sample stand four columns in, each part under its heading. -/
def part (heading : String) (lines : List String) : String :=
  "\n**" ++ heading ++ ":**\n\n" ++ String.join (lines.map ("    " ++ · ++ "\n"))

def body (a : Article) : String :=
  a.explanation ++ "\n" ++
    match a.sample with
    | some s => part "Example" s.faulty ++ part "Fix" s.mended
    | none => ""

end Article

namespace Complaint

def article : Complaint → Article
  | .argumentExpected =>
    .withSample
      ("An operator appeared where a value was expected: two operators in a row, an "
       ++ "operator at the start of a statement, or a statement ending in an operator.")
      ["z = z * + pixel"] ["z = z * pixel"]
  | .operatorExpected =>
    .withSample
      ("Two values appeared next to each other with nothing joining them. Whitespace is "
       ++ "ignored, so `z 2` reads as the single name `z2`; the error shows up when a value "
       ++ "is followed by `(` or a literal.")
      ["z = 2 (z)"] ["z = 2 * (z)"]
  | .unopenedParen =>
    .withSample
      "A closing parenthesis has no opening parenthesis before it in the same statement."
      ["z = sqr(z))"] ["z = sqr(z)"]
  | .unclosedParen =>
    .withSample
      "A statement ended while parentheses were still open."
      ["z = (z + 1"] ["z = (z + 1)"]
  | .undefinedOperator =>
    .withSample
      "`!` must be followed by `=`, and `&` must be doubled."
      ["z = z & c"] ["z = z && c"]
  | .undefinedFunction =>
    .withSample
      ("A name followed by `(` is not a known function. The function table covers sin, "
       ++ "cos, sqr, log, exp, abs, flip, conj, real, imag, the fn1..fn4 placeholders and the "
       ++ "rest of the standard set.")
      ["z = sine(z)"] ["z = sin(z)"]
  | .tableOverflow =>
    .plain "The formula needs more constants or variables than the compiler can hold."
  | .symmetryUnclosed =>
    .withSample
      "The header opened a symmetry with `(` but reached `\x7b` before the closing `)`."
      ["mandel(XAXIS \x7b"] ["mandel(XAXIS) \x7b"]
  | .noBraceOnFirstLine =>
    .withSample
      ("The header line must contain the opening brace. The body may not start on the next "
       ++ "line.")
      ["mandel", "\x7b"] ["mandel \x7b"]
  | .unexpectedEnd =>
    .plain "The file ended inside the formula, usually because the closing `\x7d` is missing."
  | .unknownSymmetry =>
    .plain <|
      "The symmetry in the header is not one of NOSYM, XAXIS_NOPARM, XAXIS, YAXIS_NOPARM, "
      ++ "YAXIS, XYAXIS_NOPARM, XYAXIS, ORIGIN_NOPARM, ORIGIN, PI_SYM_NOPARM, PI_SYM, "
      ++ "XAXIS_NOIMAG, XAXIS_NOREAL or NOPLOT. The formula still loads with no symmetry."
  | .formulaTooLarge =>
    .plain <|
      "The formula's text, after comments and whitespace are removed, is longer than 8190 "
      ++ "characters."
  | .outOfMemory =>
    .plain "The compiler could not allocate its tables."
  | .unreadableFile =>
    .plain "The formula file could not be read."
  | .jumpNotFirst =>
    .withSample
      "`if`, `elseif`, `else` and `endif` must start their statement."
      ["z = 1, c = 2 if(z)"] ["z = 1, c = 2", "if(z)"]
  | .textAfterJump =>
    .withSample
      ("`else` and `endif` must end their statement; `if` and `elseif` take only their "
       ++ "condition.")
      ["else z = 1"] ["else", "z = 1"]
  | .jumpNeedsCondition =>
    .withSample
      "`if` and `elseif` need a parenthesized condition."
      ["if", "z = 1", "endif"] ["if(|z| < 4)", "z = 1", "endif"]
  | .endIfExpected =>
    .plain "After `else` the only jump allowed in the same block is its closing `endif`."
  | .endIfWithoutIf =>
    .plain "An `endif` appeared with no open `if` block."
  | .misplacedElse =>
    .plain "`else` or `elseif` appeared outside an `if` block."
  | .ifOpenAtColon =>
    .plain "Every `if` block opened before the `:` must close before it."
  | .ifOpenAtEnd =>
    .plain "The formula ended with an `if` block still open."
  | .jumpsUnresolved =>
    .plain "The jump structure could not be resolved after compilation."
  | .tooManyJumps =>
    .plain "The formula has 200 or more jump instructions."
  | .nameTooLong =>
    .plain "Formula names are limited to 18 characters."
  | .illegalAssignment =>
    .withSample
      "The target of `=` must be a single variable."
      ["z + 1 = c"] ["z = c - 1"]
  | .illegalName =>
    .withSample
      "A variable name may not contain `.`."
      ["z.x = 1"] ["zx = 1"]
  | .malformedNumber =>
    .withSample
      ("A number is malformed: two decimal points, a letter after the digits, or an "
       ++ "exponent with no digits.")
      ["z = 1.2.3"] ["z = 1.23"]
  | .illegalCharacter =>
    .withSample
      "The formula contains a character outside the formula language."
      ["z = $z"] ["z = z"]
  | .nestingTooDeep =>
    .plain "Parentheses nest more than 64 deep."
  | .unmatchedModulus =>
    .withSample
      "A `|...|` modulus was opened but not closed in the same parentheses and statement."
      ["z = |z"] ["z = |z|"]
  | .functionAsVariable =>
    .withSample
      "A function name such as `sin` was used without an argument list."
      ["z = sin"] ["z = sin(z)"]
  | .negativeExponent =>
    .withSample
      "`^` may not be followed directly by a negative number."
      ["z = z ^ -2"] ["z = z ^ (-2)"]
  | .tokenTooLong =>
    .plain "Names and numbers are limited to 32 characters."
  | .secondColon =>
    .withSample
      "The `:` separating the init section from the iterated section may appear once."
      ["z = 0: c = 1: z = z*z + c"] ["z = 0, c = 1: z = z*z + c"]
  | .unknownNumber =>
    .plain "An error code outside the known range was reported."

end Complaint

namespace ErrorCode

def article : ErrorCode → Article
  | .complaint c => c.article
  | .formulaNotFound =>
    .plain <|
      "The file was read but no entry has the requested name. Names are compared without "
      ++ "regard to case. `--list` shows every entry in a file."
  | .fileUnreadable =>
    .plain "The formula file could not be opened or read."
  | .formulaTooLarge =>
    .plain "The formula's token text exceeds 8190 characters."
  | .noInstructions =>
    .plain "The formula body compiled to no instructions, for example `empty \x7b \x7d`."
  | .jumpStructure =>
    .plain <|
      "The compiled `if`/`elseif`/`else`/`endif` structure did not match the jump table. "
      ++ "Prescan normally rejects such formulas first."
  | .modeUnavailable =>
    .plain <|
      "The requested math mode was not compiled into this build. Enable the `fixed` or "
      ++ "`mp` cargo feature."
  | .shiftOutOfRange =>
    .plain "Fixed-point mode needs a bitshift between 8 and 29."
  | .constantOutOfRange =>
    .plain <|
      "A constant the formula reads cannot be represented in the chosen math mode, for "
      ++ "example `1e12` in fixed point."
  | .functionUnbindable =>
    .plain "fn1..fn4 may be bound to any function in the table except fn1..fn4 themselves."

/-- The whole article, with the code and its title on top. -/
def explanation (code : ErrorCode) : String :=
  "## " ++ code.text ++ ": " ++ code.title ++ "\n\n" ++ code.article.body

end ErrorCode
end FractalFormula
