import Flowchart.Json.Decimal
import Flowchart.Json.Document

/-!
# Reading JSON text

`Doc.parse` reads one value and gives back the text after it, or nothing where the text breaks
off. A text that breaks off still has a document, with a flaw where the text went wrong: in place
of a value, or at the end of an array or an object. `Doc.readText` applies a reader to a whole
text.
-/

namespace Flowchart.Doc

def isBlank (c : Char) : Bool := c == ' ' || c == '\n' || c == '\t' || c == '\r'

/-- Brackets may nest this deep in a value that is taken. -/
def maxDepth : Nat := 127

/-- What a step of the parser found, and the text that follows it if the text goes on. -/
abbrev Parsed (α : Type) := α × Option (List Char)

def broken (flaw : Flaw) : Parsed Doc := (flawed flaw, none)

/-- What comes of a text that goes on in a wrong way, or ends. -/
def stray : List Char → Flaw
  | [] => .plain .ended
  | _ :: _ => .plain .grammar

def literal (d : Doc) : List Char → List Char → Parsed Doc
  | [], cs => (d, some cs)
  | _ :: _, [] => broken (.literal .ended)
  | e :: es, c :: cs => if c = e then literal d es cs else broken (.literal .grammar)

def digitsValue (digits : List Nat) : Nat := digits.foldl (fun n digit => 10 * n + digit) 0

def digits (cs : List Char) : Except Fault (List Nat × List Char) :=
  match cs with
  | [] => throw .ended
  | c :: _ =>
    if c.isDigit then
      pure ((cs.takeWhile (·.isDigit)).map (·.toNat - 48), cs.dropWhile (·.isDigit))
    else throw .grammar

/-- The digits before the point. A zero stands alone. -/
def integerPart : List Char → Except Fault (List Nat × List Char)
  | '0' :: c :: cs => if c.isDigit then throw .grammar else pure ([0], c :: cs)
  | cs => digits cs

def fractionPart : List Char → Except Fault (List Nat × List Char)
  | '.' :: cs => digits cs
  | cs => pure ([], cs)

def exponentPart : List Char → Except Fault (Option Int × List Char)
  | [] => pure (none, [])
  | c :: cs =>
    if c = 'e' ∨ c = 'E' then
      match cs with
      | '-' :: cs => do
        let (ds, rest) ← digits cs
        pure (some (-digitsValue ds), rest)
      | '+' :: cs => do
        let (ds, rest) ← digits cs
        pure (some (digitsValue ds), rest)
      | cs => do
        let (ds, rest) ← digits cs
        pure (some (digitsValue ds), rest)
    else pure (none, c :: cs)

/-- The whole number that fits 64 bits, signed below zero and unsigned above. There is no minus
zero among them. -/
def wholeOf? (negative : Bool) (n : Nat) : Option Int :=
  if negative then if 0 < n ∧ n ≤ Nat.pow 2 63 then some (-n) else none
  else if n < Nat.pow 2 64 then some n else none

/-- A number that is not whole. One that is too large cannot be taken. -/
def decimalOf (negative : Bool) (whole fraction : List Nat) (exponent : Int) : Doc :=
  match (Decimal.Scientific.ofParts whole fraction exponent).value? with
  | some n => decimal (String.ofList ((if negative then ['-'] else []) ++ Decimal.text n))
  | none => flawed .harmless

def numberOf (negative : Bool) (whole fraction : List Nat) (exponent : Option Int) : Doc :=
  match fraction, exponent, wholeOf? negative (digitsValue whole) with
  | [], none, some n => int n
  | _, _, _ => decimalOf negative whole fraction (exponent.getD 0)

def number (negative : Bool) (cs : List Char) : Parsed Doc :=
  let parts : Except Fault (Doc × List Char) := do
    let (whole, cs) ← integerPart cs
    let (fraction, cs) ← fractionPart cs
    let (exponent, cs) ← exponentPart cs
    pure (numberOf negative whole fraction exponent, cs)
  match parts with
  | .ok (d, cs) => (d, some cs)
  | .error fault => broken (.number fault)

def hexValue? (c : Char) : Option Nat :=
  if '0' ≤ c ∧ c ≤ '9' then some (c.toNat - 48)
  else if 'a' ≤ c ∧ c ≤ 'f' then some (c.toNat - 87)
  else if 'A' ≤ c ∧ c ≤ 'F' then some (c.toNat - 55)
  else none

def codeUnit (cs : List Char) : Except Fault Nat :=
  match cs.take 4 |>.mapM hexValue? with
  | some [a, b, c, d] => pure (((a * 16 + b) * 16 + c) * 16 + d)
  | _ =>
      let size := (cs.take 4).foldl (fun size c => size + c.utf8Size) 0
      if size < 4 then throw .ended else throw .grammar

def isHighSurrogate (n : Nat) : Bool := 0xD800 ≤ n && n < 0xDC00

def isLowSurrogate (n : Nat) : Bool := 0xDC00 ≤ n && n < 0xE000

def ofSurrogates (high low : Nat) : Char :=
  Char.ofNat (0x10000 + (high - 0xD800) * 0x400 + (low - 0xDC00))

def simpleEscape? : Char → Option Char
  | '"' => some '"'
  | '\\' => some '\\'
  | '/' => some '/'
  | 'b' => some '\x08'
  | 'f' => some '\x0c'
  | 'n' => some '\n'
  | 'r' => some '\r'
  | 't' => some '\t'
  | _ => none

/-- What is known of a string before its closing quote: its characters so far, last one first, and
whether one half of a surrogate pair stood alone. -/
structure Scanned where
  reversed : List Char := []
  half : Bool := false

def Scanned.add (s : Scanned) (c : Char) : Scanned := { s with reversed := c :: s.reversed }

/-- The whole string. One half of a surrogate pair is no character, but does no harm in a string
that is passed over. -/
def Scanned.toDoc (s : Scanned) : Doc :=
  if s.half then flawed .harmless else str (String.ofList s.reversed.reverse)

/-- A string that the text breaks off. Where it is taken, the half of a pair shows first. -/
def Scanned.broken (s : Scanned) (fault : Fault) : Parsed Doc :=
  Doc.broken (if s.half then ⟨.grammar, throw fault, .grammar⟩ else .plain fault)

/-- The rest of a string, up to its closing quote. -/
def stringRest : Nat → Scanned → List Char → Parsed Doc
  | 0, s, _ => s.broken .ended
  | fuel + 1, s, cs =>
    match cs with
    | [] => s.broken .ended
    | '"' :: cs => (s.toDoc, some cs)
    | ['\\'] => s.broken .ended
    | '\\' :: 'u' :: cs =>
      match codeUnit cs with
      | .error fault => s.broken fault
      | .ok n =>
        let rest := cs.drop 4
        if isLowSurrogate n then stringRest fuel { s with half := true } rest
        else if isHighSurrogate n then
          match rest with
          | [] => s.broken .ended
          | ['\\'] => s.broken .ended
          | '\\' :: 'u' :: more =>
            match codeUnit more with
            | .error fault => s.broken fault
            | .ok m =>
              if isLowSurrogate m then stringRest fuel (s.add (ofSurrogates n m)) (more.drop 4)
              else stringRest fuel { s with half := true } rest
          | _ => stringRest fuel { s with half := true } rest
        else stringRest fuel (s.add (Char.ofNat n)) rest
    | '\\' :: c :: cs =>
      match simpleEscape? c with
      | some e => stringRest fuel (s.add e) cs
      | none => s.broken .grammar
    | c :: cs => if c.toNat < 0x20 then s.broken .grammar else stringRest fuel (s.add c) cs

def limitDepth (depth : Nat) (d : Doc) : Doc := if depth < maxDepth then d else deep d

/-- Members of an object, and what breaks it off. -/
abbrev Part := List (String × Doc) × Option Flaw

/-- A key that holds one half of a surrogate pair. It ends an object that is taken; passing over
the object goes on with the value and the other members. -/
def halfKey (d : Doc) (others : Part) : Part :=
  ([], some { Flaw.harmless with
    passed := do d.skip; skipMembers others.1; Flaw.pass others.2 })

mutual

/-- Reads one value that stands inside `depth` brackets. Each call uses up fuel, and of two calls
in a row at least one uses up a character. -/
def parseValue : Nat → Nat → List Char → Parsed Doc
  | 0, _, _ => broken (.plain .grammar)
  | fuel + 1, depth, cs =>
    match cs.dropWhile isBlank with
    | '"' :: cs => stringRest (cs.length + 1) {} cs
    | '[' :: cs =>
      let ((items, flaw), rest) := match cs.dropWhile isBlank with
        | ']' :: cs => (([], none), some cs)
        | cs => parseItems fuel (depth + 1) cs
      (limitDepth depth (arr items flaw), rest)
    | '\x7b' :: cs =>
      let ((members, flaw), rest) := match cs.dropWhile isBlank with
        | '\x7d' :: cs => (([], none), some cs)
        | cs => parseMembers fuel (depth + 1) cs
      (limitDepth depth (obj members flaw), rest)
    | 'n' :: cs => literal null ['u', 'l', 'l'] cs
    | 't' :: cs => literal (bool true) ['r', 'u', 'e'] cs
    | 'f' :: cs => literal (bool false) ['a', 'l', 's', 'e'] cs
    | '-' :: cs => number true cs
    | cs => if (cs.head?.any (·.isDigit)) then number false cs else broken (stray cs)

def parseItems : Nat → Nat → List Char → Parsed (List Doc × Option Flaw)
  | 0, _, _ => (([], some (.plain .grammar)), none)
  | fuel + 1, depth, cs =>
    match parseValue fuel depth cs with
    | (d, none) => (([d], none), none)
    | (d, some cs) =>
      match cs.dropWhile isBlank with
      | ']' :: cs => (([d], none), some cs)
      | ',' :: cs =>
        let ((ds, flaw), rest) := parseItems fuel depth cs
        ((d :: ds, flaw), rest)
      | cs => (([d], some (stray cs)), none)

def parseMembers : Nat → Nat → List Char → Parsed Part
  | 0, _, _ => (([], some (.plain .grammar)), none)
  | fuel + 1, depth, cs =>
    match cs.dropWhile isBlank with
    | '"' :: cs =>
      match stringRest (cs.length + 1) {} cs with
      | (str key, some cs) =>
        let (d, (members, flaw), rest) := parseMember fuel depth cs
        (((key, d) :: members, flaw), rest)
      | (flawed flaw, none) => (([], some flaw), none)
      | (_, rest) =>
        let (d, others, rest) := parseMember fuel depth (rest.getD [])
        (halfKey d others, rest)
    | cs => (([], some (stray cs)), none)

/-- The value of a member whose key was read, and the members after it. -/
def parseMember : Nat → Nat → List Char → Doc × Parsed Part
  | 0, _, _ => (flawed (.plain .grammar), ([], none), none)
  | fuel + 1, depth, cs =>
    match cs.dropWhile isBlank with
    | ':' :: cs =>
      match parseValue fuel depth cs with
      | (d, none) => (d, ([], none), none)
      | (d, some cs) =>
        match cs.dropWhile isBlank with
        | '\x7d' :: cs => (d, ([], none), some cs)
        | ',' :: cs =>
          let ((members, flaw), rest) := parseMembers fuel depth cs
          (d, (members, flaw.map Flaw.afterComma), rest)
        | cs => (d, ([], some (stray cs)), none)
    | cs => (flawed (stray cs), ([], none), none)

end

def parse (text : String) : Parsed Doc :=
  parseValue (2 * text.length + 2) 0 text.toList

/-- Reads a whole text. Nothing but blanks may follow its value. -/
def readText {α : Type} (read : Doc → Except Fault α) (text : String) : Except Fault α := do
  let (d, rest) := parse text
  let a ← read d
  if (rest.getD []).all isBlank then pure a else throw .grammar

end Flowchart.Doc
