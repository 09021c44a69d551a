/-
WorkspaceAudit/Json/Reader.lean

Reading the parts of a JSON text.

A reader takes what is left of a text and answers with a value and what is
then left, or with a fault; the first fault ends the reading.
-/
import WorkspaceAudit.Json.Fault

namespace WorkspaceAudit.Json

/-- A reader of a value at the start of a text. -/
abbrev Reader (α : Type) :=
  List Char → Except Fault (α × List Char)

/-! ### White space and words -/

/-- Whether a character is white space between the parts of a text. -/
def isSpace (c : Char) : Bool :=
  c == ' ' || c == '\n' || c == '\r' || c == '\t'

/-- Drops the white space at the start. -/
def dropSpace (s : List Char) : List Char :=
  s.dropWhile isSpace

/-- These letters, of a word that has begun. -/
def word : List Char → Reader Unit
  | [], s => .ok ((), s)
  | _ :: _, [] => .error (.at [] .endInValue)
  | c :: cs, d :: s => if c = d then word cs s else .error (.after (d :: s) .wordExpected)

/-! ### Strings -/

/-- The value of a digit of base sixteen. -/
def hexValue? (c : Char) : Option Nat :=
  if c.isDigit then some (c.toNat - '0'.toNat)
  else if 'a' ≤ c && c ≤ 'f' then some (c.toNat - 'a'.toNat + 10)
  else if 'A' ≤ c && c ≤ 'F' then some (c.toNat - 'A'.toNat + 10)
  else none

/-- Four digits of base sixteen. -/
def hexFour : Reader Nat :=
  fun s =>
    if Text.byteSize (s.take 4) < 4 then .error (.at [] .endInString)
    else
      match s with
      | a :: b :: c :: d :: r =>
        match hexValue? a, hexValue? b, hexValue? c, hexValue? d with
        | some a, some b, some c, some d => .ok (((a * 16 + b) * 16 + c) * 16 + d, r)
        | _, _, _, _ => .error ⟨.invalidEscape, s, 4, true⟩
      | s => .error ⟨.invalidEscape, s, 4, true⟩

/-- Whether a code is the second half of a pair. -/
def isLowHalf (n : Nat) : Bool :=
  0xDC00 ≤ n && n ≤ 0xDFFF

/-- Whether a code is the first half of a pair. -/
def isHighHalf (n : Nat) : Bool :=
  0xD800 ≤ n && n ≤ 0xDBFF

/-- The character of a numbered escape, after its `u`.  One beyond sixteen
bits is written as a pair of escapes. -/
def numbered : Reader Char :=
  fun s => do
    let (n, r) ← hexFour s
    if isLowHalf n then .error (.at r .loneSurrogate)
    else if isHighHalf n then
      match r with
      | [] => .error (.at [] .endInString)
      | '\\' :: r =>
        match r with
        | [] => .error (.at [] .endInString)
        | 'u' :: r => do
          let (m, r) ← hexFour r
          if isLowHalf m then
            .ok (Char.ofNat (0x10000 + (n - 0xD800) * 0x400 + (m - 0xDC00)), r)
          else .error (.at r .loneSurrogate)
        | r => .error (.after r .hexEscapeEnded)
      | r => .error (.after r .hexEscapeEnded)
    else .ok (Char.ofNat n, r)

/-- The character that a letter after a backslash stands for. -/
def escapeOf? (c : Char) : Option Char :=
  if c = '"' then some '"'
  else if c = '\\' then some '\\'
  else if c = '/' then some '/'
  else if c = 'b' then some '\x08'
  else if c = 'f' then some '\x0c'
  else if c = 'n' then some '\n'
  else if c = 'r' then some '\r'
  else if c = 't' then some '\t'
  else none

/-- What follows a backslash. -/
def escaped : Reader Char
  | [] => .error (.at [] .endInString)
  | c :: r =>
    match escapeOf? c with
    | some e => .ok (e, r)
    | none => if c = 'u' then numbered r else .error (.after (c :: r) .invalidEscape)

/-- The rest of a string, from its reversed start.  The number bounds the
rounds, each of which consumes something. -/
def stringFrom : Nat → List Char → Reader String
  | n + 1, soFar, c :: r =>
    if c = '"' then .ok (String.ofList soFar.reverse, r)
    else if c = '\\' then
      match escaped r with
      | .ok (e, r') => stringFrom n (e :: soFar) r'
      | .error f => .error f
    else if c.toNat < 0x20 then .error (.after (c :: r) .controlCharacter)
    else stringFrom n (c :: soFar) r
  | _, _, s => .error (.at s .endInString)

/-- A string, after its opening quote. -/
def string : Reader String :=
  fun s => stringFrom s.length [] s

/-! ### Numbers -/

/-- A number as it is told apart in messages. -/
inductive Number
  | integer (n : Int)
  | float (x : Binary64)
  deriving DecidableEq, Repr

/-- The largest integer of 64 bits. -/
def maxWord : Nat := Nat.pow 2 64 - 1

/-- The largest exponent that is read. -/
def maxExponent : Nat := Nat.pow 2 31 - 1

/-- Takes digits into a number as long as 64 bits hold it; also answers the
digits that were not taken. -/
def takeDigits : Nat → List Char → Nat × List Char
  | n, [] => (n, [])
  | n, d :: ds =>
    let next := n * 10 + (d.toNat - '0'.toNat)
    if maxWord < next then (n, d :: ds) else takeDigits next ds

/-- A number times ten to the exponent, in binary arithmetic: one product or
quotient with a power of ten, after divisions that bring the exponent within
the powers there are.  None if it is too large. -/
def scaled : Nat → Binary64 → Int → Option Binary64
  | 0, x, _ => some x
  | n + 1, x, e =>
    if e.natAbs ≤ 308 then
      let power := Binary64.ofDecimal false 1 e.natAbs
      if e < 0 then some (x.div power)
      else
        let y := x.mul power
        if y.isInfinite then none else some y
    else if x.isZero then some x
    else if 0 ≤ e then none
    else scaled n (x.div (Binary64.ofDecimal false 1 308)) (e + 308)

/-- The float of its digits and exponent. -/
def floatOf (negative : Bool) (significand : Nat) (e : Int) : Reader Number :=
  fun s =>
    match scaled 4 (Binary64.ofNat significand) e with
    | some x => .ok (.float (if negative then x.neg else x), s)
    | none => .error (.at s .numberOutOfRange)

/-- The digits of an exponent, as long as 31 bits hold it: the exponent, or
what is left after the first digit too many. -/
def exponentDigits : Nat → List Char → Except (List Char) (Nat × List Char)
  | n, d :: s =>
    if d.isDigit then
      let next := n * 10 + (d.toNat - '0'.toNat)
      if maxExponent < next then .error s else exponentDigits next s
    else .ok (n, d :: s)
  | n, [] => .ok (n, [])

/-- A number from the sign of its exponent on. -/
def exponentPart (negative : Bool) (significand : Nat) (e : Int) : Reader Number :=
  fun s =>
    let (below, s) := match s with
      | '+' :: r => (false, r)
      | '-' :: r => (true, r)
      | r => (false, r)
    match s with
    | [] => .error (.at [] .endInValue)
    | d :: r =>
      if d.isDigit then
        match exponentDigits 0 (d :: r) with
        | .ok (n, r) => floatOf negative significand (if below then e - n else e + n) r
        | .error r =>
          if significand != 0 && !below then .error (.at r .numberOutOfRange)
          else .ok (.float (Binary64.zero negative), r.dropWhile Char.isDigit)
      else .error (.after (d :: r) .invalidNumber)

/-- A number from its point on, after it. -/
def fractionPart (negative : Bool) (significand : Nat) (e : Int) : Reader Number :=
  fun s =>
    let ds := s.takeWhile Char.isDigit
    let r := s.dropWhile Char.isDigit
    if ds.isEmpty then
      .error (.after s (if s.isEmpty then .endInValue else .invalidNumber))
    else
      let (n, left) := takeDigits significand ds
      let e := e - ((ds.length - left.length : Nat) : Int)
      match r with
      | 'e' :: r => exponentPart negative n e r
      | 'E' :: r => exponentPart negative n e r
      | r => floatOf negative n e r

/-- A number after its first digits, of which `left` were too many. -/
def numberAfter (negative : Bool) (significand : Nat) (left : List Char) :
    Reader Number
  | '.' :: r => fractionPart negative significand left.length r
  | 'e' :: r => exponentPart negative significand left.length r
  | 'E' :: r => exponentPart negative significand left.length r
  | r =>
    if left.isEmpty then
      if !negative then .ok (.integer significand, r)
      else if significand = 0 || Nat.pow 2 63 < significand then
        .ok (.float (Binary64.ofNat significand).neg, r)
      else .ok (.integer (-significand), r)
    else floatOf negative significand left.length r

/-- A number after its minus sign, if it has one. -/
def number (negative : Bool) : Reader Number
  | [] => .error (.at [] .endInValue)
  | '0' :: r =>
    match r with
    | d :: _ =>
      if d.isDigit then .error (.after r .invalidNumber) else numberAfter negative 0 [] r
    | [] => numberAfter negative 0 [] r
  | d :: r =>
    if d.isDigit then
      let (n, left) := takeDigits 0 ((d :: r).takeWhile Char.isDigit)
      numberAfter negative n left (r.dropWhile Char.isDigit)
    else .error (.after (d :: r) .invalidNumber)

/-! ### Scalars -/

/-- A number in words. -/
def Number.found : Number → Found
  | integer n => .integer n
  | float x => .float x

/-- What stands here, where another sort of value is wanted: a scalar is
read to its end, a list or an object is only looked at. -/
def found : Reader Found
  | [] => .error (.after [] .valueExpected)
  | c :: r =>
    if c = 'n' then do
      let ((), r) ← word "ull".toList r
      return (.null, r)
    else if c = 't' then do
      let ((), r) ← word "rue".toList r
      return (.boolean true, r)
    else if c = 'f' then do
      let ((), r) ← word "alse".toList r
      return (.boolean false, r)
    else if c = '-' then do
      let (n, r) ← number true r
      return (n.found, r)
    else if c.isDigit then do
      let (n, r) ← number false (c :: r)
      return (n.found, r)
    else if c = '"' then do
      let (s, r) ← string r
      return (.string s, r)
    else if c = '[' then .ok (.sequence, c :: r)
    else if c = '\x7b' then .ok (.map, c :: r)
    else .error (.after (c :: r) .valueExpected)

/-- Refuses the value that stands here. -/
def mistyped {α : Type} (wanted : String) : Reader α :=
  fun s =>
    match found s with
    | .ok (f, r) => .error (.at r (.invalidType f wanted))
    | .error e => .error e

/-- A string, or a refusal that says what was wanted. -/
def stringValue (wanted : String) : Reader String :=
  fun s =>
    match dropSpace s with
    | [] => .error (.at [] .endInValue)
    | '"' :: r => string r
    | r => mistyped wanted r

/-- A string or nothing. -/
def optionalString (wanted : String) : Reader (Option String) :=
  fun s =>
    match dropSpace s with
    | 'n' :: r => do
      let ((), r) ← word "ull".toList r
      return (none, r)
    | r => do
      let (t, r) ← stringValue wanted r
      return (some t, r)

/-! ### Lists and objects -/

/-- What is left once an object was closed as far as it can be. -/
def closeObject (s : List Char) : List Char :=
  match dropSpace s with
  | '\x7d' :: r => r
  | r => r

/-- What is left once a list was closed as far as it can be; a comma in the
way is left behind. -/
def closeList (s : List Char) : List Char :=
  match dropSpace s with
  | ']' :: r => r
  | ',' :: r => dropSpace r
  | r => r

/-- Gives a fault that has none its place, where the brackets close. -/
def settle {α : Type} (close : List Char → List Char) :
    Except Fault α → Except Fault α
  | .error f => .error (if f.settled then f else ⟨f.problem, close f.rest, 0, true⟩)
  | r => r

/-- The start of the next item of a list, or nothing at its end. -/
def nextItem (first : Bool) (s : List Char) : Except Fault (Option (List Char)) :=
  match dropSpace s with
  | [] => .error (.at [] .endInList)
  | ']' :: _ => .ok none
  | c :: r =>
    if first then .ok (some (c :: r))
    else if c = ',' then
      match dropSpace r with
      | [] => .error (.at [] .endInValue)
      | ']' :: r => .error (.after (']' :: r) .trailingComma)
      | r => .ok (some r)
    else .error (.after (c :: r) .listCommaExpected)

/-- The end of a list that holds all it can. -/
def listEnd : Reader Unit :=
  fun s =>
    match dropSpace s with
    | [] => .error (.at [] .endInList)
    | ']' :: r => .ok ((), r)
    | ',' :: r =>
      match dropSpace r with
      | ']' :: r => .error (.after (']' :: r) .trailingComma)
      | r => .error (.after r .trailingCharacters)
    | r => .error (.after r .trailingCharacters)

/-- The start of the next key of an object, after its quote, or nothing at
the end of the object. -/
def nextKey (first : Bool) (s : List Char) : Except Fault (Option (List Char)) :=
  match dropSpace s with
  | [] => .error (.at [] .endInObject)
  | '\x7d' :: _ => .ok none
  | c :: r =>
    if first then
      if c = '"' then .ok (some r) else .error (.after (c :: r) .keyNotString)
    else if c = ',' then
      match dropSpace r with
      | [] => .error (.at [] .endInValue)
      | '"' :: r => .ok (some r)
      | '\x7d' :: r => .error (.after ('\x7d' :: r) .trailingComma)
      | r => .error (.after r .keyNotString)
    else .error (.after (c :: r) .objectCommaExpected)

/-- The colon after a key. -/
def colon : Reader Unit :=
  fun s =>
    match dropSpace s with
    | [] => .error (.at [] .endInObject)
    | ':' :: r => .ok ((), r)
    | r => .error (.after r .colonExpected)

/-- The items of a list from here to its end, from those read so far (the
last first).  The number bounds the items. -/
def itemsFrom {α : Type} (item : Reader α) : Nat → List α → Reader (List α)
  | 0, _, s => .error (.at s .endInList)
  | n + 1, soFar, s => do
    match ← nextItem soFar.isEmpty s with
    | none => return (soFar.reverse, closeList s)
    | some r =>
      let (a, r) ← item r
      itemsFrom item n (a :: soFar) r

/-- The items of a list, after its opening bracket. -/
def items {α : Type} (item : Reader α) : Reader (List α) :=
  fun s => itemsFrom item (s.length + 1) [] s

/-! ### Records -/

/-- How a record is written: as an object with these keys, or as a list of
their values in this order.  `σ` is what has been read of it. -/
structure RecordForm (σ : Type) where
  /-- What is said to be wanted where something else stands. -/
  wanted : String
  fields : List String
  /-- Reads the value of a field. -/
  read : String → σ → Reader σ

namespace RecordForm

variable {σ : Type}

/-- The members of an object from here to its end; `seen` are the keys so
far.  The number bounds the members. -/
def membersFrom (form : RecordForm σ) : Nat → List String → σ → Reader σ
  | 0, _, _, s => .error (.at s .endInObject)
  | n + 1, seen, record, s => do
    match ← nextKey seen.isEmpty s with
    | none => return (record, dropSpace s)
    | some r =>
      let (key, r) ← string r
      if !form.fields.contains key then
        .error (.unsettled r (.unknownField key form.fields))
      else if seen.contains key then .error (.unsettled r (.duplicateField key))
      else
        let ((), r) ← colon r
        let (record, r) ← form.read key record r
        membersFrom form n (key :: seen) record r

/-- The values of the fields in order, up to the end of the list; `first`
tells whether none was read yet.  Also answers how many fields are left. -/
def valuesFrom (form : RecordForm σ) : Bool → List String → σ → Reader (σ × Nat)
  | _, [], record, s => .ok ((record, 0), s)
  | first, field :: fields, record, s => do
    match ← nextItem first s with
    | none => return ((record, fields.length + 1), s)
    | some r =>
      let (record, r) ← form.read field record r
      valuesFrom form false fields record r

/-- A record in either form.  `complete` says what the whole record is, or
what is wrong with it, from what was read and the number of values of a
list, none for an object. -/
def record {α : Type} (form : RecordForm σ) (start : σ)
    (complete : Option Nat → σ → Except Problem α) : Reader α :=
  fun s =>
    match dropSpace s with
    | [] => .error (.at [] .endInValue)
    | '\x7b' :: r => do
      let (a, r) ← settle closeObject do
        let (record, r) ← form.membersFrom (r.length + 1) [] start r
        match complete none record with
        | .ok a => return (a, r)
        | .error p => .error (.unsettled r p)
      return (a, closeObject r)
    | '[' :: r => do
      let (a, r) ← settle closeList do
        let ((record, left), r) ← form.valuesFrom true form.fields start r
        match complete (some (form.fields.length - left)) record with
        | .ok a => return (a, r)
        | .error p => .error (.unsettled r p)
      let ((), r) ← listEnd r
      return (a, r)
    | r => mistyped form.wanted r

end RecordForm

/-! ### Whole texts -/

/-- The value that a whole text is. -/
def whole {α : Type} (p : Reader α) (text : List Char) : Except Fault α := do
  let (a, r) ← p text
  match dropSpace r with
  | [] => return a
  | r => .error (.after r .trailingCharacters)

end WorkspaceAudit.Json
