/-
Reading the notation of pattern expressions. Groups, counted repetitions, bracketed classes with set
operations, escapes and scoped switches are read in one pass; a switch holds from where it stands to
the end of its group.

Without the `unicode` switch a class may hold ASCII characters only, since anything else could match
part of a character.
-/
import GrammarKit.Regex.Syntax
import GrammarKit.Unicode.Property

namespace GrammarKit.Regex

/-- Why a text is no pattern. -/
inductive Fault where
  /-- A `)` without a group, after so many characters. -/
  | unopenedGroup (index : Nat)
  | unclosedGroup
  | unclosedClass
  | lookAround
  | groupName
  | unknownSwitch
  | missingOperand
  | badCount
  | badEscape
  | backReference
  | badRange
  | unknownClass
  | partialCharacter
  deriving DecidableEq

structure Reading where
  rest : List Char
  options : Options := {}
  names : List String := []

abbrev Reader := StateT Reading (Except Fault)

namespace Reader

/-! ## Characters -/

def blanks : CharSet := .ofRanges Unicode.blank

/-- Drops blanks and comments, which run from `#` to the end of the line. -/
def dropSpace (inComment : Bool) : List Char → List Char
  | [] => []
  | c :: cs =>
    if inComment then dropSpace (c != '\n') cs
    else if blanks.contains c then dropSpace false cs
    else if c == '#' then dropSpace true cs
    else c :: cs

def skipSpace : Reader Unit :=
  modify fun s => if s.options.spaced then { s with rest := dropSpace false s.rest } else s

def peek : Reader (Option Char) := return (← get).rest.head?

/-- The character after the next one, past space where space is skipped. -/
def peekSecond (skipping : Bool) : Reader (Option Char) := do
  let s ← get
  let after := s.rest.tail
  return (if skipping && s.options.spaced then dropSpace false after else after).head?

def bump : Reader Unit := modify fun s => { s with rest := s.rest.tail }

def bumpSpace : Reader Unit := do bump; skipSpace

/-- Takes `word` if it comes next. -/
def take? (word : String) : Reader Bool := do
  let s ← get
  if word.toList.isPrefixOf s.rest then
    set { s with rest := s.rest.drop word.length }
    return true
  else return false

def next (fault : Fault) : Reader Char := do
  match ← peek with
  | some c => return c
  | none => throw fault

def setOptions (o : Options) : Reader Unit := modify fun s => { s with options := o }

/-! ## Sets of characters -/

def wordSet : CharSet := .ofRanges Unicode.word
def digitSet : CharSet := .ofRanges Unicode.digit
def alphabeticSet : CharSet := .ofRanges Unicode.alphabetic
def alphanumericSet : CharSet := .ofRanges (Unicode.alphabetic ++ Unicode.numeric)
def asciiDigits : CharSet := .ofRanges [(48, 57)]
def asciiBlanks : CharSet := .ofRanges [(9, 13), (32, 32)]
def asciiWord : CharSet := .ofRanges [(48, 57), (65, 90), (95, 95), (97, 122)]

/-- The other characters; without the `unicode` switch those among single bytes. -/
def negate (o : Options) (s : CharSet) : CharSet :=
  if o.unicode then s.complement else s.complement.inter (.ofRanges [(0, 255)])

def foldBy (o : Options) (s : CharSet) : CharSet :=
  if !o.ignoreCase then s else if o.unicode then s.foldCase else s.foldAsciiCase

/-- Applies case and negation to a finished set. -/
def finish (negated : Bool) (s : CharSet) : Reader CharSet := do
  let o := (← get).options
  let s := foldBy o s
  let s := if negated then negate o s else s
  if !o.unicode && s.last?.any (· > 127) then throw .partialCharacter
  return s

/-- The classes written between `[:` and `:]`. -/
def namedClass? : String → Option (List (Nat × Nat))
  | "alnum" => some [(48, 57), (65, 90), (97, 122)]
  | "alpha" => some [(65, 90), (97, 122)]
  | "ascii" => some [(0, 127)]
  | "blank" => some [(9, 9), (32, 32)]
  | "cntrl" => some [(0, 31), (127, 127)]
  | "digit" => some [(48, 57)]
  | "graph" => some [(33, 126)]
  | "lower" => some [(97, 122)]
  | "print" => some [(32, 126)]
  | "punct" => some [(33, 47), (58, 64), (91, 96), (123, 126)]
  | "space" => some [(9, 13), (32, 32)]
  | "upper" => some [(65, 90)]
  | "word" => some [(48, 57), (65, 90), (95, 95), (97, 122)]
  | "xdigit" => some [(48, 57), (65, 70), (97, 102)]
  | _ => none

/-! ## Escapes -/

/-- A single element of a pattern. -/
inductive Atom where
  /-- A character; `byte` when it was written as a two-digit code. -/
  | literal (c : Char) (byte : Bool)
  | set (s : CharSet)
  | look (l : Look)
  | dot

def isMeta (c : Char) : Bool := "\\.+*?()|[]\x7b\x7d^$#&-~".contains c

def isEscapable (c : Char) : Bool :=
  isMeta c || (c.toNat < 128 && !c.isAlphanum && c != '<' && c != '>')

def hexValue? (c : Char) : Option Nat :=
  if c.isDigit then some (c.toNat - 48)
  else if 'a' ≤ c ∧ c ≤ 'f' then some (c.toNat - 87)
  else if 'A' ≤ c ∧ c ≤ 'F' then some (c.toNat - 55)
  else none

def codeChar (n : Nat) : Reader Char :=
  if n ≤ 0x10FFFF && !(0xD800 ≤ n && n ≤ 0xDFFF) then return Char.ofNat n else throw .badEscape

/-- Exactly `count` hexadecimal digits. -/
def hexDigits : (count : Nat) → Nat → Reader Nat
  | 0, value => return value
  | n + 1, value => do
    match hexValue? (← next .badEscape) with
    | some d => bumpSpace; hexDigits n (value * 16 + d)
    | none => throw .badEscape

/-- Hexadecimal digits up to a closing brace. -/
def hexBraced : (fuel : Nat) → (digits value : Nat) → Reader Nat
  | 0, _, _ => throw .badEscape
  | fuel + 1, digits, value => do
    let c ← next .badEscape
    if c == '}' then
      bump; skipSpace
      if digits = 0 then throw .badEscape else return value
    else match hexValue? c with
      | some d => bumpSpace; hexBraced fuel (digits + 1) (value * 16 + d)
      | none => throw .badEscape

/-- What follows the `x`, `u` or `U` of a code. -/
def readHex (digits : Nat) : Reader Atom := do
  bumpSpace
  if (← next .badEscape) == '{' then
    bumpSpace
    let n ← hexBraced ((← get).rest.length + 1) 0 0
    return .literal (← codeChar n) false
  else
    let c ← codeChar (← hexDigits digits 0)
    return .literal c (digits == 2)

/-- The text up to a closing brace. -/
def bracedName : (fuel : Nat) → List Char → Reader String
  | 0, _ => throw .badEscape
  | fuel + 1, seen => do
    let c ← next .badEscape
    if c == '}' then bump; return String.ofList seen.reverse
    else bumpSpace; bracedName fuel (c :: seen)

/-- Names may start with `is`. -/
def bareName (name : String) : String :=
  let loose := Unicode.looseName name
  if loose.startsWith "is" && loose != "isc" then (loose.drop 2).toString else loose

/-- The property between the braces of a class, and whether the braces negate it. -/
def property? (name : String) : Option (List (Nat × Nat)) × Bool :=
  match name.splitOn "!=", name.splitOn ":", name.splitOn "=" with
  | [p, v], _, _ => (Unicode.valued? (bareName p) (bareName v), true)
  | _, [p, v], _ => (Unicode.valued? (bareName p) (bareName v), false)
  | _, _, [p, v] => (Unicode.valued? (bareName p) (bareName v), false)
  | _, _, _ => (Unicode.named? (bareName name), false)

def readProperty (negated : Bool) : Reader Atom := do
  bumpSpace
  let c ← next .badEscape
  let name ←
    if c == '{' then do bumpSpace; bracedName ((← get).rest.length + 1) []
    else if c == '\\' then throw .unknownClass
    else do bumpSpace; pure c.toString
  if !(← get).options.unicode then throw .unknownClass
  match property? name with
  | (some ranges, inside) => return .set (← finish (negated != inside) (.ofRanges ranges))
  | (none, _) => throw .unknownClass

def readShorthand (c : Char) : Reader Atom := do
  bump
  let o := (← get).options
  let s := match c.toLower with
    | 'd' => if o.unicode then digitSet else asciiDigits
    | 's' => if o.unicode then blanks else asciiBlanks
    | _ => if o.unicode then wordSet else asciiWord
  let s := if c.isUpper then negate o s else s
  if !o.unicode && s.last?.any (· > 127) then throw .partialCharacter
  return .set s

/-- What `\b` means with the word in braces that may follow it. -/
def boundaryOf (ascii : Bool) : Reader Look := do
  for (word, cond) in [("\x7bstart\x7d", Look.wordStart ascii), ("\x7bend\x7d", .wordEnd ascii),
      ("\x7bstart-half\x7d", .wordStartHalf ascii), ("\x7bend-half\x7d", .wordEndHalf ascii)] do
    if ← take? word then return cond
  return .boundary ascii

/-- An escape, from its backslash on. -/
def readEscape : Reader Atom := do
  bump
  let c ← next .badEscape
  if c.isDigit then throw .backReference
  match c with
  | 'x' => readHex 2
  | 'u' => readHex 4
  | 'U' => readHex 8
  | 'p' => readProperty false
  | 'P' => readProperty true
  | 'd' | 's' | 'w' | 'D' | 'S' | 'W' => readShorthand c
  | _ =>
    bump
    let ascii := !(← get).options.unicode
    if isEscapable c then return .literal c false
    match c with
    | 'a' => return .literal '\x07' false
    | 'f' => return .literal '\x0c' false
    | 't' => return .literal '\t' false
    | 'n' => return .literal '\n' false
    | 'r' => return .literal '\r' false
    | 'v' => return .literal '\x0b' false
    | 'A' => return .look .textStart
    | 'z' => return .look .textEnd
    | 'b' => return .look (← boundaryOf ascii)
    | 'B' => return .look (.noBoundary ascii)
    | '<' => return .look (.wordStart ascii)
    | '>' => return .look (.wordEnd ascii)
    | _ => throw .badEscape

/-! ## Bracketed classes -/

inductive SetOp where
  | inter
  | diff
  | symmDiff

/-- Applies the operation that waits for its right side. -/
def combine (pending : Option (SetOp × CharSet)) (right : CharSet) : Reader CharSet := do
  match pending with
  | none => return right
  | some (op, left) =>
    let o := (← get).options
    let left := foldBy o left
    let right := foldBy o right
    return match op with
      | .inter => left.inter right
      | .diff => left.diff right
      | .symmDiff => left.symmDiff right

/-- A class such as `[:alpha:]`; anything else leaves the text as it was. -/
def asciiClass? : Reader (Option CharSet) := do
  let s ← get
  match s.rest with
  | '[' :: ':' :: after =>
    let negated := after.head? == some '^'
    let body := if negated then after.tail else after
    let name := body.takeWhile (· != ':')
    match body.dropWhile (· != ':'), namedClass? (String.ofList name) with
    | ':' :: ']' :: rest, some ranges =>
      set { s with rest }
      return some (← finish negated (.ofRanges ranges))
    | _, _ => return none
  | _ => return none

def classAtom : Reader Atom := do
  let c ← next .unclosedClass
  if c == '\\' then readEscape else bump; return .literal c false

/-- A character that may stand alone or end a range. -/
def endpoint (a : Atom) : Reader Char := do
  match a with
  | .literal c byte =>
    if !(← get).options.unicode && c.toNat > 127 && !byte then throw .partialCharacter
    return c
  | _ => throw .badRange

def classItem : Reader CharSet := do
  let a ← classAtom
  skipSpace
  let c ← next .unclosedClass
  let second ← peekSecond true
  if c != '-' || second == some ']' || second == some '-' then
    match a with
    | .literal .. => return .single (← endpoint a)
    | .set s => return s
    | _ => throw .badEscape
  else
    bumpSpace
    let b ← classAtom
    let first ← endpoint a
    let last ← endpoint b
    if last < first then throw .badRange
    return .ofRanges [(first.toNat, last.toNat)]

/-- Leading hyphens stand for themselves. -/
def leadingHyphens : (fuel : Nat) → CharSet → Reader CharSet
  | 0, s => return s
  | fuel + 1, s => do
    if (← next .unclosedClass) == '-' then bumpSpace; leadingHyphens fuel (s.union (.single '-'))
    else return s

/-- The start of a class, from its bracket on: whether it is negated, and what it already holds. -/
def openClass : Reader (Bool × CharSet) := do
  bumpSpace
  let negated := (← next .unclosedClass) == '^'
  if negated then bumpSpace
  let s ← leadingHyphens ((← get).rest.length + 1) .empty
  if s.isEmpty && (← next .unclosedClass) == ']' then
    bumpSpace
    discard (next .unclosedClass)
    return (negated, .single ']')
  return (negated, s)

/-- The rest of a class up to and with its closing bracket. -/
def classBody : (fuel : Nat) → Bool → Option (SetOp × CharSet) → CharSet → Reader CharSet
  | 0, _, _, _ => throw .unclosedClass
  | fuel + 1, negated, pending, current => do
    skipSpace
    let operation (op : SetOp) : Reader CharSet := do
      bump; bump
      let left ← combine pending current
      classBody fuel negated (some (op, left)) .empty
    match ← next .unclosedClass, ← peekSecond false with
    | '[', _ =>
      match ← asciiClass? with
      | some s => classBody fuel negated pending (current.union s)
      | none =>
        let (innerNegated, start) ← openClass
        let inner ← classBody fuel innerNegated none start
        classBody fuel negated pending (current.union inner)
    | ']', _ =>
      bump
      finish negated (← combine pending current)
    | '&', some '&' => operation .inter
    | '-', some '-' => operation .diff
    | '~', some '~' => operation .symmDiff
    | _, _ => do
      let s ← classItem
      classBody fuel negated pending (current.union s)

def readClass : Reader Expr := do
  let (negated, start) ← openClass
  return .chars (← classBody ((← get).rest.length + 1) negated none start)

/-! ## Groups and switches -/

def applySwitch (o : Options) (on : Bool) : Char → Option Options
  | 'i' => some { o with ignoreCase := on }
  | 'm' => some { o with multiLine := on }
  | 's' => some { o with dotAll := on }
  | 'U' => some { o with swapGreed := on }
  | 'u' => some { o with unicode := on }
  | 'R' => some { o with crlf := on }
  | 'x' => some { o with spaced := on }
  | _ => none

/-- Switches up to the `:` or `)` after them; each may be named once, and one hyphen turns the
switches after it off. -/
def switches : (fuel : Nat) → (seen : List Char) → Options → Reader (List Char × Options)
  | 0, _, _ => throw .unclosedGroup
  | fuel + 1, seen, o => do
    let c ← next .unclosedGroup
    if c == ':' || c == ')' then
      if seen.head? == some '-' then throw .unknownSwitch
      return (seen, o)
    if seen.contains c then throw .unknownSwitch
    if c == '-' then bump; switches fuel (c :: seen) o
    else match applySwitch o (!seen.contains '-') c with
      | some o => bump; switches fuel (c :: seen) o
      | none => throw .unknownSwitch

def isNameChar (first : Bool) (c : Char) : Bool :=
  c == '_' || if first then alphabeticSet.contains c
    else c == '.' || c == '[' || c == ']' || alphanumericSet.contains c

/-- The name of a group up to and with its `>`. -/
def groupName : Reader Unit := do
  let s ← get
  let name := s.rest.takeWhile (· != '>')
  let ok := match name with
    | [] => false
    | c :: cs => isNameChar true c && cs.all (isNameChar false)
  let text := String.ofList name
  if !ok || s.names.contains text || name.length = s.rest.length then throw .groupName
  set { s with rest := s.rest.drop (name.length + 1), names := text :: s.names }

/-- How a parenthesis continues: as a group with the options of its body, or as switches for the rest
of the group it stands in. -/
inductive Opening where
  | group (options : Options)
  | switch (options : Options)

def openGroup : Reader Opening := do
  bump
  skipSpace
  for lookaround in ["?=", "?!", "?<=", "?<!"] do
    if lookaround.toList.isPrefixOf (← get).rest then throw .lookAround
  let o := (← get).options
  if (← take? "?P<") || (← take? "?<") then
    groupName
    return .group o
  if ← take? "?" then
    let (seen, o) ← switches ((← get).rest.length + 1) [] o
    let c ← next .unclosedGroup
    bump
    if c == ')' then
      if seen.isEmpty then throw .missingOperand
      return .switch o
    return .group o
  return .group o

/-! ## Repetition -/

/-- The largest count that a repetition may name. -/
def countLimit : Nat := 4294967295

/-- A decimal count, with blanks around it. -/
def readCount : Reader Nat := do
  modify fun s => { s with rest := s.rest.dropWhile blanks.contains }
  let digits := (← get).rest.takeWhile (·.isDigit)
  modify fun s => { s with rest := s.rest.drop digits.length }
  skipSpace
  modify fun s => { s with rest := s.rest.dropWhile blanks.contains }
  let value := digits.foldl (fun n c => n * 10 + (c.toNat - 48)) 0
  if digits.isEmpty || value > countLimit then throw .badCount
  return value

/-- Takes the mark that reverses the preference of a repetition. -/
def readGreed : Reader Bool := do
  let lazy ← take? "?"
  return lazy == (← get).options.swapGreed

/-- The counts between braces, from the opening brace on. -/
def readBounds : Reader (Nat × Option Nat) := do
  bumpSpace
  let least ← readCount
  let c ← next .badCount
  let bounds ←
    if c == ',' then do
      bumpSpace
      if (← next .badCount) == '}' then pure (least, none)
      else do let most ← readCount; pure (least, some most)
    else pure (least, some least)
  if (← next .badCount) != '}' then throw .badCount
  if bounds.2.any (· < least) then throw .badCount
  bumpSpace
  return bounds

/-! ## Expressions -/

/-- A part of a sequence; switches leave a mark that cannot be repeated. -/
inductive Piece where
  | expr (e : Expr)
  | switch

def literal (c : Char) (byte : Bool) : Reader Expr := do
  let o := (← get).options
  if !o.unicode && c.toNat > 127 && (byte || o.ignoreCase) then throw .partialCharacter
  return .chars (foldBy o (.single c))

def ofAtom : Atom → Reader Expr
  | .literal c byte => literal c byte
  | .set s => return .chars s
  | .look l => return .look l
  | .dot => do
    let o := (← get).options
    if !o.unicode then throw .partialCharacter
    if o.dotAll then return .chars .all
    let ends := if o.crlf then CharSet.ofRanges [(10, 10), (13, 13)] else .single '\n'
    return .chars ends.complement

def readAtom (c : Char) : Reader Expr := do
  let o := (← get).options
  match c with
  | '\\' => ofAtom (← readEscape)
  | '.' => bump; ofAtom .dot
  | '^' =>
    bump
    return .look (if !o.multiLine then .textStart else if o.crlf then .crlfLineStart else .lineStart)
  | '$' =>
    bump
    return .look (if !o.multiLine then .textEnd else if o.crlf then .crlfLineEnd else .lineEnd)
  | _ => bump; literal c false

def sequence (pieces : List Piece) : Expr :=
  .seqAll (pieces.reverse.filterMap fun | .expr e => some e | .switch => none)

def choice (alternatives : List Expr) (last : Expr) : Expr :=
  alternatives.foldl (fun right left => .alt left right) last

/-- The part that a repetition applies to, and the parts before it. -/
def operand : List Piece → Reader (Expr × List Piece)
  | .expr e :: before => return (e, before)
  | _ => throw .missingOperand

/-- Alternatives up to the end of the text or a closing parenthesis; `fuel` exceeds the characters
left. `alternatives` and `pieces` are what was read, last first. -/
def body : (fuel : Nat) → (alternatives : List Expr) → (pieces : List Piece) → Reader Expr
  | 0, _, _ => throw .unclosedGroup
  | fuel + 1, alternatives, pieces => do
    skipSpace
    let repeated (least : Nat) (most : Option Nat) : Reader Expr := do
      let (e, before) ← operand pieces
      let greedy ← readGreed
      body fuel alternatives (.expr (.times greedy least most e) :: before)
    match ← peek with
    | none | some ')' => return choice alternatives (sequence pieces)
    | some '|' => bump; body fuel (sequence pieces :: alternatives) []
    | some '(' =>
      let outer := (← get).options
      match ← openGroup with
      | .switch o =>
        setOptions o
        body fuel alternatives (.switch :: pieces)
      | .group o =>
        setOptions o
        let inner ← body fuel [] []
        if (← next .unclosedGroup) != ')' then throw .unclosedGroup
        bump
        setOptions outer
        body fuel alternatives (.expr inner :: pieces)
    | some '[' => do
      let e ← readClass
      body fuel alternatives (.expr e :: pieces)
    | some '?' => bump; repeated 0 (some 1)
    | some '*' => bump; repeated 0 none
    | some '+' => bump; repeated 1 none
    | some '{' => do
      discard (operand pieces)
      let (least, most) ← readBounds
      repeated least most
    | some c => do
      let e ← readAtom c
      body fuel alternatives (.expr e :: pieces)

end Reader

/-- Reads a pattern. -/
def Expr.read (source : List Char) : Except Fault Expr := do
  let (e, s) ← (Reader.body (source.length + 1) [] []).run { rest := source }
  if s.rest.isEmpty then return e else throw (.unopenedGroup (source.length - s.rest.length))

end GrammarKit.Regex
