import Pddl.Syntax.Term
import Pddl.Number.Scale
/-!
# Reading request text

A request is one line of JSON text. Reading it gives a `Term`:

* An integer without fraction or exponent stays an integer when it fits the 64-bit unsigned
  range, or, when negative and nonzero, the 64-bit signed range. Every other number, `-0`
  included, becomes a binary64 number: its leading digits as a 64-bit significand (digits that
  no longer fit are dropped, and those of the integer part counted in the exponent), scaled by
  its power of ten in binary64 steps (`decimalInSteps`). A number whose exponent digits exceed
  the 32-bit range is zero, or out of range when it is positive and its significand is not.
* Strings take the escapes `\" \\ \/ \b \f \n \r \t` and `\uXXXX`; a high surrogate must be
  followed by an escaped low one, and raw control characters are refused.
* Object fields are kept in the order of their names, a repeated name keeping its last value.
* Lists and objects nest at most 127 deep.

A failure names its cause and the place in the text where it was found: the line and the
byte column of the last character read, or of the next one for causes seen by looking ahead.
-/

namespace Pddl

/-- Why a request text is not a term. -/
inductive ReadError where
  | endInList
  | endInObject
  | endInString
  | endInValue
  | missingColon
  | missingListSeparator
  | missingFieldSeparator
  | badLiteral
  | missingValue
  | badEscape
  | badNumber
  | outOfRange
  | controlCharacter
  | keyNotString
  | loneSurrogate
  | unfinishedSurrogatePair
  | trailingComma
  | trailingText
  | tooDeep
  deriving DecidableEq, Inhabited

def ReadError.message : ReadError → String
  | .endInList => "EOF while parsing a list"
  | .endInObject => "EOF while parsing an object"
  | .endInString => "EOF while parsing a string"
  | .endInValue => "EOF while parsing a value"
  | .missingColon => "expected `:`"
  | .missingListSeparator => "expected `,` or `]`"
  | .missingFieldSeparator => "expected `,` or `\x7d`"
  | .badLiteral => "expected ident"
  | .missingValue => "expected value"
  | .badEscape => "invalid escape"
  | .badNumber => "invalid number"
  | .outOfRange => "number out of range"
  | .controlCharacter => "control character (\\u0000-\\u001F) found while parsing a string"
  | .keyNotString => "key must be a string"
  | .loneSurrogate => "lone leading surrogate in hex escape"
  | .unfinishedSurrogatePair => "unexpected end of hex escape"
  | .trailingComma => "trailing comma"
  | .trailingText => "trailing characters"
  | .tooDeep => "recursion limit exceeded"

/-- A failure and where it was found. -/
structure ReadFailure where
  error : ReadError
  line : Nat
  column : Nat
  deriving DecidableEq, Inhabited

def ReadFailure.message (f : ReadFailure) : String :=
  f.error.message ++ " at line " ++ toString f.line ++ " column " ++ toString f.column

/-- Where reading stands: the text still to read, and the line and byte column of the last
character read. -/
structure Cursor where
  rest : List Char
  line : Nat := 1
  column : Nat := 0
  deriving Inhabited

namespace Cursor

/-- The cursor past the next character. -/
def advance (c : Cursor) : Cursor :=
  match c.rest with
  | [] => c
  | '\n' :: r => { rest := r, line := c.line + 1, column := 0 }
  | ch :: r => { c with rest := r, column := c.column + ch.utf8Size }

/-- The cursor past the characters that satisfy `p`. -/
def advanceWhile (p : Char → Bool) (c : Cursor) : Cursor :=
  (c.rest.takeWhile p).foldl (fun c _ => c.advance) c

/-- The cursor past blanks: spaces, tabs, line feeds and carriage returns. -/
def skipBlank (c : Cursor) : Cursor :=
  c.advanceWhile fun ch => ch == ' ' || ch == '\t' || ch == '\n' || ch == '\r'

/-- A failure at the last character read. -/
def fail {α : Type} (c : Cursor) (e : ReadError) : Except ReadFailure α :=
  throw ⟨e, c.line, c.column⟩

/-- A failure at the next character, or at the end of the text. -/
def failAhead {α : Type} (c : Cursor) (e : ReadError) : Except ReadFailure α :=
  match c.rest with
  | [] => throw ⟨e, c.line, c.column⟩
  | '\n' :: _ => throw ⟨e, c.line + 1, 0⟩
  | _ => throw ⟨e, c.line, c.column + 1⟩

end Cursor

/-! ## Numbers -/

/-- The largest 64-bit unsigned significand. -/
def maxSignificand : Nat := Nat.pow 2 64 - 1

/-- The largest exponent that is read digit by digit, that of 32-bit signed integers. -/
def maxExponent : Nat := Nat.pow 2 31 - 1

/-- Clamps an exponent to the 32-bit signed range. -/
def clampExponent (e : Int) : Int := max (-(Int.pow 2 31)) (min e maxExponent)

/-- The value of a digit. -/
def digitValue (ch : Char) : Nat := ch.toNat - '0'.toNat

/-- Integer digits as a significand: once a digit no longer fits, it and all later digits are
dropped and counted. -/
def integerSignificand (ds : List Char) : Nat × Nat :=
  ds.foldl (fun (sig, dropped) ch =>
    if dropped > 0 then (sig, dropped + 1)
    else if sig * 10 + digitValue ch > maxSignificand then (sig, 1)
    else (sig * 10 + digitValue ch, 0)) (0, 0)

/-- Fraction digits appended to a significand while they fit: the significand, how many digits
were taken, and whether the rest was dropped. -/
def fractionSignificand (sig : Nat) (ds : List Char) : Nat × Nat × Bool :=
  ds.foldl (fun (sig, taken, full) ch =>
    if full then (sig, taken, full)
    else if sig * 10 + digitValue ch > maxSignificand then (sig, taken, true)
    else (sig * 10 + digitValue ch, taken + 1, false)) (sig, 0, false)

/-- How many exponent digits are read until the value leaves the 32-bit range, if it does. -/
def exponentOverflowAt (ds : List Char) : Option Nat :=
  (ds.foldl (fun (v, i, found) ch =>
    match found with
    | some k => (v, i, some k)
    | none =>
        let v := v * 10 + digitValue ch
        if v > maxExponent then (v, i + 1, some (i + 1)) else (v, i + 1, none)) (0, 0, none)).2.2

/-- The binary64 term of `± sig × 10 ^ exp`, or out of range. -/
def finishNumber (negative : Bool) (sig : Nat) (exp : Int) (c : Cursor) : Except ReadFailure (Term × Cursor) :=
  match decimalInSteps sig exp with
  | some (m, e) => pure (.float negative m e, c)
  | none => c.fail .outOfRange

/-- Reads an exponent after its `e`, for `± sig × 10 ^ start`. -/
def readNumberExponent (negative : Bool) (sig : Nat) (start : Int) (c : Cursor) : Except ReadFailure (Term × Cursor) :=
  let (up, c) := match c.rest with
    | '+' :: _ => (true, c.advance)
    | '-' :: _ => (false, c.advance)
    | _ => (true, c)
  match c.rest with
  | [] => c.fail .endInValue
  | ch :: _ =>
      if !ch.isDigit then c.advance.fail .badNumber
      else
        let ds := c.rest.takeWhile Char.isDigit
        match exponentOverflowAt ds with
        | some k =>
            if sig ≠ 0 && up then ((List.range k).foldl (fun c _ => c.advance) c).fail .outOfRange
            else pure (.float negative 0 0, c.advanceWhile Char.isDigit)
        | none =>
            let v : Int := digitsValue ds
            let exp := clampExponent (if up then start + v else start - v)
            finishNumber negative sig exp (c.advanceWhile Char.isDigit)

/-- Reads a fraction after its point, for `± sig × 10 ^ start`. -/
def readNumberFraction (negative : Bool) (sig : Nat) (start : Int) (c : Cursor) : Except ReadFailure (Term × Cursor) :=
  let ds := c.rest.takeWhile Char.isDigit
  if ds.isEmpty then
    match c.rest with
    | [] => c.failAhead .endInValue
    | _ => c.failAhead .badNumber
  else
    let (sig, taken, _) := fractionSignificand sig ds
    let c := c.advanceWhile Char.isDigit
    let exp := start - taken
    match c.rest with
    | 'e' :: _ | 'E' :: _ => readNumberExponent negative sig exp c.advance
    | _ => finishNumber negative sig exp c

/-- Reads what follows the integer digits of a number. -/
def readAfterInteger (negative : Bool) (sig dropped : Nat) (c : Cursor) : Except ReadFailure (Term × Cursor) :=
  match c.rest with
  | '.' :: _ => readNumberFraction negative sig dropped c.advance
  | 'e' :: _ | 'E' :: _ => readNumberExponent negative sig dropped c.advance
  | _ =>
      if dropped > 0 then finishNumber negative sig dropped c
      else if !negative then pure (.int sig, c)
      else if sig = 0 || sig > Nat.pow 2 63 then finishNumber negative sig 0 c
      else pure (.int (-(sig : Int)), c)

/-- Reads a number after its sign. -/
def readNumber (negative : Bool) (c : Cursor) : Except ReadFailure (Term × Cursor) :=
  match c.rest with
  | [] => c.fail .endInValue
  | '0' :: r =>
      match r with
      | ch :: _ => if ch.isDigit then c.advance.failAhead .badNumber else readAfterInteger negative 0 0 c.advance
      | [] => readAfterInteger negative 0 0 c.advance
  | ch :: _ =>
      if ch.isDigit then
        let (sig, dropped) := integerSignificand (c.rest.takeWhile Char.isDigit)
        readAfterInteger negative sig dropped (c.advanceWhile Char.isDigit)
      else c.advance.fail .badNumber

/-! ## Strings -/

/-- The value of four hexadecimal digits. -/
def hexValue (ds : List Char) : Option Nat :=
  ds.foldlM (fun v ch =>
    if ch.isDigit then some (v * 16 + digitValue ch)
    else if 'a' ≤ ch && ch ≤ 'f' then some (v * 16 + ch.toNat - 'a'.toNat + 10)
    else if 'A' ≤ ch && ch ≤ 'F' then some (v * 16 + ch.toNat - 'A'.toNat + 10)
    else none) 0

/-- Reads four hexadecimal digits. -/
def readHex (c : Cursor) : Except ReadFailure (Nat × Cursor) :=
  match c.rest with
  | a :: b :: d :: e :: _ =>
      let c := c.advance.advance.advance.advance
      match hexValue [a, b, d, e] with
      | some v => pure (v, c)
      | none => c.fail .badEscape
  | _ => (c.advanceWhile fun _ => true).fail .endInString

/-- Reads a `\u` escape after its `u`: a character outside the surrogates, or a high surrogate
with an escaped low one. -/
def readUnicodeEscape (c : Cursor) : Except ReadFailure (Char × Cursor) := do
  let (n, c) ← readHex c
  if 0xDC00 ≤ n && n ≤ 0xDFFF then c.fail .loneSurrogate
  else if 0xD800 ≤ n && n ≤ 0xDBFF then
    match c.rest with
    | [] => c.fail .endInString
    | '\\' :: _ =>
        let c := c.advance
        match c.rest with
        | [] => c.fail .endInString
        | 'u' :: _ =>
            let (low, c) ← readHex c.advance
            if low < 0xDC00 || low > 0xDFFF then c.fail .loneSurrogate
            else pure (Char.ofNat ((n - 0xD800) * 0x400 + (low - 0xDC00) + 0x10000), c)
        | _ => c.advance.fail .unfinishedSurrogatePair
    | _ => c.advance.fail .unfinishedSurrogatePair
  else pure (Char.ofNat n, c)

/-- Reads an escape after its backslash. -/
def readEscape (c : Cursor) : Except ReadFailure (Char × Cursor) :=
  match c.rest with
  | [] => c.fail .endInString
  | ch :: _ =>
      let c := c.advance
      match ch with
      | '"' => pure ('"', c)
      | '\\' => pure ('\\', c)
      | '/' => pure ('/', c)
      | 'b' => pure (Char.ofNat 8, c)
      | 'f' => pure (Char.ofNat 12, c)
      | 'n' => pure ('\n', c)
      | 'r' => pure ('\r', c)
      | 't' => pure ('\t', c)
      | 'u' => readUnicodeEscape c
      | _ => c.fail .badEscape

/-- Reads the rest of a string after its opening quote; `acc` holds the characters read,
last first, and `fuel` bounds the characters left. -/
def readStringBody : Nat → List Char → Cursor → Except ReadFailure (String × Cursor)
  | 0, _, c => c.fail .endInString
  | fuel + 1, acc, c =>
      match c.rest with
      | [] => c.fail .endInString
      | '"' :: _ => pure (String.ofList acc.reverse, c.advance)
      | '\\' :: _ =>
          match readEscape c.advance with
          | .ok (ch, c) => readStringBody fuel (ch :: acc) c
          | .error f => .error f
      | ch :: _ =>
          if ch.toNat < 0x20 then c.advance.fail .controlCharacter
          else readStringBody fuel (ch :: acc) c.advance

/-- Reads a string after its opening quote, in at most `fuel` steps. -/
def readString (fuel : Nat) (c : Cursor) : Except ReadFailure (String × Cursor) :=
  readStringBody fuel [] c

/-! ## Values -/

/-- Reads the rest of a word whose first letter was read. -/
def readWord : List Char → Term → Cursor → Except ReadFailure (Term × Cursor)
  | [], t, c => pure (t, c)
  | w :: ws, t, c =>
      match c.rest with
      | [] => c.fail .endInValue
      | ch :: _ => if ch == w then readWord ws t c.advance else c.advance.fail .badLiteral

/-- Adds a field to fields ordered by name, replacing a field of the same name. -/
def insertField (k : String) (v : Term) : List (String × Term) → List (String × Term)
  | [] => [(k, v)]
  | (k', v') :: fs =>
      if k = k' then (k, v) :: fs
      else if k < k' then (k, v) :: (k', v') :: fs
      else (k', v') :: insertField k v fs

mutual

/-- Reads a value; `depth` is one more than the lists and objects it may still open, and
`fuel` bounds the steps. Reading a text of `n` characters with fuel `2 * n + 2` never runs out:
a value is read with fuel above twice the characters left, and each step to an element or a
field reads at least one character. -/
def readValue : Nat → Nat → Cursor → Except ReadFailure (Term × Cursor)
  | 0, _, c => c.failAhead .tooDeep
  | fuel + 1, depth, c =>
      let c := c.skipBlank
      match c.rest with
      | [] => c.failAhead .endInValue
      | 'n' :: _ => readWord ['u', 'l', 'l'] .null c.advance
      | 't' :: _ => readWord ['r', 'u', 'e'] (.bool true) c.advance
      | 'f' :: _ => readWord ['a', 'l', 's', 'e'] (.bool false) c.advance
      | '-' :: _ => readNumber true c.advance
      | '"' :: _ =>
          match readString (fuel + 1) c.advance with
          | .ok (s, c) => pure (.str s, c)
          | .error f => .error f
      | '[' :: _ =>
          if depth ≤ 1 then c.failAhead .tooDeep
          else
            match readElements fuel (depth - 1) true [] c.advance with
            | .ok (ts, c) => pure (.list ts, c)
            | .error f => .error f
      | '{' :: _ =>
          if depth ≤ 1 then c.failAhead .tooDeep
          else
            match readFields fuel (depth - 1) true [] c.advance with
            | .ok (fs, c) => pure (.obj fs, c)
            | .error f => .error f
      | ch :: _ => if ch.isDigit then readNumber false c else c.failAhead .missingValue

/-- Reads the elements of a list after its opening bracket, up to its closing one; `acc`
holds the elements read, last first. -/
def readElements : Nat → Nat → Bool → List Term → Cursor → Except ReadFailure (List Term × Cursor)
  | 0, _, _, _, c => c.failAhead .tooDeep
  | fuel + 1, depth, first, acc, c =>
      let c := c.skipBlank
      match c.rest with
      | [] => c.failAhead .endInList
      | ']' :: _ => pure (acc.reverse, c.advance)
      | ch :: _ =>
          if first then
            match readValue fuel depth c with
            | .ok (t, c) => readElements fuel depth false (t :: acc) c
            | .error f => .error f
          else if ch == ',' then
            let c := c.advance.skipBlank
            match c.rest with
            | [] => c.failAhead .endInValue
            | ']' :: _ => c.failAhead .trailingComma
            | _ =>
                match readValue fuel depth c with
                | .ok (t, c) => readElements fuel depth false (t :: acc) c
                | .error f => .error f
          else c.failAhead .missingListSeparator

/-- Reads the fields of an object after its opening brace, up to its closing one. -/
def readFields : Nat → Nat → Bool → List (String × Term) → Cursor → Except ReadFailure (List (String × Term) × Cursor)
  | 0, _, _, _, c => c.failAhead .tooDeep
  | fuel + 1, depth, first, acc, c =>
      let c := c.skipBlank
      match c.rest with
      | [] => c.failAhead .endInObject
      | '}' :: _ => pure (acc, c.advance)
      | ch :: _ =>
          let c :=
            if ch == ',' && !first then c.advance.skipBlank else c
          if ch != ',' && !first then c.failAhead .missingFieldSeparator
          else
            match c.rest with
            | [] => c.failAhead .endInValue
            | '}' :: _ => c.failAhead .trailingComma
            | '"' :: _ =>
                match readString (fuel + 1) c.advance with
                | .error f => .error f
                | .ok (k, c) =>
                    let c := c.skipBlank
                    match c.rest with
                    | [] => c.failAhead .endInObject
                    | ':' :: _ =>
                        match readValue fuel depth c.advance with
                        | .ok (v, c) => readFields fuel depth false (insertField k v acc) c
                        | .error f => .error f
                    | _ => c.failAhead .missingColon
            | _ => c.failAhead .keyNotString

end

/-- The deepest nesting of lists and objects is one less than this. -/
def nestingLimit : Nat := 128

/-- Reads a request text: one value, with blanks around it. -/
def Term.parse (text : String) : Except String Term :=
  match readValue (2 * text.length + 2) nestingLimit { rest := text.toList } with
  | .error f => .error f.message
  | .ok (t, c) =>
      let c := c.skipBlank
      match c.rest with
      | [] => .ok t
      | _ => (c.failAhead .trailingText).mapError ReadFailure.message

end Pddl
