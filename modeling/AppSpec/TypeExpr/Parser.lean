import AppSpec.Diagnostic
import AppSpec.TypeExpr.Basic
import AppSpec.TypeExpr.Fault

/-!
Reading type expressions. A reader takes the text that is left and returns what it leaves; nesting
is bounded by the depth that is still allowed, and each repetition by the length of the text, which
is never used up: every repetition but the last takes a comma.
-/

namespace AppSpec

namespace TypeText

def isNameStart (c : Char) : Bool := Literal.isLetter c || c == '_'

def isNameChar (c : Char) : Bool := isNameStart c || Literal.isAsciiDigit c

/-- The name at the start of a text, empty if there is none, and what follows it. -/
def splitName : List Char → List Char × List Char
  | [] => ([], [])
  | c :: cs =>
      if isNameStart c then (c :: cs.takeWhile isNameChar, cs.dropWhile isNameChar)
      else ([], c :: cs)

theorem splitName_append (cs : List Char) : (splitName cs).1 ++ (splitName cs).2 = cs := by
  cases cs with
  | nil => rfl
  | cons c cs =>
      cases h : isNameStart c <;> simp [splitName, h, List.takeWhile_append_dropWhile]

/-- The text in front of the closing quote; a backslash takes the character after it as it is. -/
def splitQuoted (quote : Char) : List Char → Option (List Char) × List Char
  | [] => (none, [])
  | '\\' :: c :: rest =>
      let (text, after) := splitQuoted quote rest
      (text.map (c :: ·), after)
  | c :: rest =>
      if c = quote then (some [], rest)
      else
        let (text, after) := splitQuoted quote rest
        (text.map (c :: ·), after)

def isQuote (c : Char) : Bool := c == '\'' || c == '"'

/-- The text in front of the first stop outside brackets. -/
def splitBare (stop : Char → Bool) : Nat → List Char → List Char × List Char
  | _, [] => ([], [])
  | nesting, c :: cs =>
      if c == '(' || c == '[' then
        let (text, rest) := splitBare stop (nesting + 1) cs
        (c :: text, rest)
      else if (c == ')' || c == ']') && decide (0 < nesting) then
        let (text, rest) := splitBare stop (nesting - 1) cs
        (c :: text, rest)
      else if stop c && nesting == 0 then ([], c :: cs)
      else
        let (text, rest) := splitBare stop nesting cs
        (c :: text, rest)

theorem splitBare_append (stop : Char → Bool) (nesting : Nat) (cs : List Char) :
    (splitBare stop nesting cs).1 ++ (splitBare stop nesting cs).2 = cs := by
  induction cs generalizing nesting with
  | nil => rfl
  | cons c cs ih =>
      simp only [splitBare]
      split
      · simp [ih]
      · split
        · simp [ih]
        · split
          · rfl
          · simp [ih]

/-- Inside quotes, whether the next character is taken as it is. -/
inductive Quoting where
  | outside
  | inside (quote : Char)
  | escaped (quote : Char)
  deriving DecidableEq, Repr

/-- What is left from the next comma or closing brace on that is not nested. -/
def skipEntry : Nat → Quoting → List Char → List Char
  | _, _, [] => []
  | nesting, .inside quote, c :: cs =>
      if c = '\\' then skipEntry nesting (.escaped quote) cs
      else if c = quote then skipEntry nesting .outside cs
      else skipEntry nesting (.inside quote) cs
  | nesting, .escaped quote, _ :: cs => skipEntry nesting (.inside quote) cs
  | nesting, .outside, c :: cs =>
      if c == '[' || c == '\x7b' || c == '(' then skipEntry (nesting + 1) .outside cs
      else if c == ']' || c == '\x7d' || c == ')' then
        if nesting = 0 then
          if c == '\x7d' then c :: cs else skipEntry 0 .outside cs
        else skipEntry (nesting - 1) .outside cs
      else if c == ',' && nesting == 0 then c :: cs
      else if isQuote c then skipEntry nesting (.inside c) cs
      else skipEntry nesting .outside cs

end TypeText

/-- The text that is left to read, and the issues met so far. -/
structure TypeCursor where
  rest : List Char
  issues : List TypeIssue

namespace TypeCursor

def left (s : TypeCursor) : Nat := s.rest.length

def skipBlanks (s : TypeCursor) : TypeCursor := { s with rest := Text.skipBlanks s.rest }

def peek (s : TypeCursor) : Option Char := s.rest.head?

def note (s : TypeCursor) (kind : TypeIssueKind) (left : Nat) : TypeCursor :=
  { s with issues := s.issues ++ [⟨kind, left⟩] }

end TypeCursor

abbrev TypeReader (α : Type) := TypeCursor → Except TypeStop (α × TypeCursor)

namespace TypeExpr

def faultAt {α : Type} (s : TypeCursor) (kind : TypeFaultKind) : Except TypeStop α :=
  .error (.fault ⟨kind, s.left⟩)

def expect (c : Char) (context : Expecting) (s : TypeCursor) : Except TypeStop TypeCursor :=
  let s := s.skipBlanks
  match s.rest with
  | d :: rest =>
      if d = c then .ok { s with rest }
      else faultAt s (.expectedCharacter c context (some d))
  | [] => faultAt s (.expectedCharacter c context none)

section Literals

abbrev LiteralReader := List Char → Except TypeStop (Option Value × List Char)

/-- The items of a list literal behind its opening bracket; `none` where the list is malformed. -/
def readItems (item : LiteralReader) :
    Nat → List Char → Except TypeStop (Option (List Value) × List Char)
  | 0, cs => return (none, cs)
  | steps + 1, cs => do
      match ← item (Text.skipBlanks cs) with
      | (none, rest) => return (none, rest)
      | (some value, rest) =>
          match Text.skipBlanks rest with
          | ',' :: rest =>
              let (values, rest) ← readItems item steps rest
              return (values.map (value :: ·), rest)
          | ']' :: rest => return (some [value], rest)
          | rest => return (none, rest)

def readList (item : LiteralReader) : LiteralReader := fun cs => do
  match Text.skipBlanks cs with
  | ']' :: rest => return (some (.list []), rest)
  | cs =>
      let (values, rest) ← readItems item (cs.length + 1) cs
      return (values.map .list, rest)

def isLiteralStop (c : Char) : Bool := c == ',' || c == '\x7d' || c == ']'

def readLiteralWith (list : LiteralReader) : LiteralReader
  | '[' :: rest => list rest
  | '\'' :: rest =>
      let (text, rest) := TypeText.splitQuoted '\'' rest
      return (text.map fun cs => .str (String.ofList cs), rest)
  | '"' :: rest =>
      let (text, rest) := TypeText.splitQuoted '"' rest
      return (text.map fun cs => .str (String.ofList cs), rest)
  | cs =>
      let (raw, rest) := TypeText.splitBare isLiteralStop 0 cs
      match Literal.read (Text.trim raw) with
      | .ok value => .ok (value.map .scalar, rest)
      | .error failure => .error (.failure failure)

def readLiteral (limit : Int) : Nat → LiteralReader
  | 0 =>
      readLiteralWith fun rest => .error (.fault ⟨.listTooDeep limit, rest.length + 1⟩)
  | depth + 1 => readLiteralWith (readList (readLiteral limit depth))

end Literals

def readConstraint (limit : Int) (s : TypeCursor) (found : Constraints) :
    Except TypeStop (Constraints × TypeCursor) :=
  let start := s.left
  match TypeText.splitName s.rest with
  | ([], _) =>
      .ok (found,
        { s.note (.expectedConstraintName s.peek) start with
          rest := TypeText.skipEntry 0 .outside s.rest })
  | (name, rest) =>
      let key := String.ofList name
      match Text.skipBlanks rest with
      | ':' :: rest =>
          let rest := Text.skipBlanks rest
          match readLiteral limit limit.toNat rest with
          | .error (.fault fault) =>
              .ok (found,
                { s.note (.constraintFault key fault.kind) fault.left with
                  rest := TypeText.skipEntry 0 .outside rest })
          | .error (.failure failure) => .error (.failure failure)
          | .ok (some value, after) => .ok (found.set key value, { s with rest := after })
          | .ok (none, after) =>
              .ok (found,
                { s.note (.notLiteral key) rest.length with
                  rest := TypeText.skipEntry 0 .outside after })
      | rest => .ok (found.set key (.bool true), { s with rest })

/-- The comma after an entry; anything else but the end of the block is passed over. -/
def endConstraint (s : TypeCursor) : TypeCursor :=
  let s := s.skipBlanks
  match s.rest with
  | ',' :: rest => { s with rest }
  | '\x7d' :: _ => s
  | [] => s
  | c :: _ =>
      let rest := TypeText.skipEntry 0 .outside s.rest
      { s.note (.unexpectedInBlock (some c)) s.left with
        rest := match rest with
          | ',' :: rest => rest
          | rest => rest }

/-- The constraints of a block behind its opening brace. -/
def readBlock (limit : Int) (openLeft : Nat) :
    Nat → TypeCursor → Constraints → Except TypeStop (Constraints × TypeCursor)
  | steps, s, found =>
      let s := s.skipBlanks
      match s.rest, steps with
      | '\x7d' :: rest, _ => .ok (found, { s with rest })
      | _ :: _, steps + 1 => do
          let (found, s) ← readConstraint limit s found
          readBlock limit openLeft steps (endConstraint s) found
      | _, _ => .ok (found, s.note .unclosedBlock openLeft)

/-- Question marks and constraint blocks behind a type; each question mark nests it once. -/
def readSuffixes (limit : Int) :
    Nat → Nat → TypeExpr → TypeReader TypeExpr
  | steps, depth, t, s =>
      let s := s.skipBlanks
      match s.rest, steps with
      | '?' :: rest, steps + 1 =>
          match depth with
          | 0 => faultAt s (.tooDeep limit)
          | depth + 1 => readSuffixes limit steps depth (.optional t []) { s with rest }
      | '\x7b' :: rest, steps + 1 => do
          let (block, s) ← readBlock limit s.left s.left { s with rest } []
          readSuffixes limit steps depth (t.withConstraints (t.constraints.setAll block)) s
      | _, _ => .ok (t, s)

def readArguments (item : TypeReader TypeExpr) : Nat → TypeReader (List TypeExpr)
  | 0, s => return ([], s)
  | steps + 1, s => do
      let (t, s) ← item s
      let s := s.skipBlanks
      match s.rest with
      | ',' :: rest =>
          let (ts, s) ← readArguments item steps { s with rest }
          return (t :: ts, s)
      | _ => return ([t], s)

def readFields (item : TypeReader TypeExpr) :
    Nat → List (String × TypeExpr) → TypeReader (List (String × TypeExpr))
  | 0, found, s => return (found, s)
  | steps + 1, found, s => do
      let s := s.skipBlanks
      match TypeText.splitName s.rest with
      | ([], _) => faultAt s (.expectedFieldName s.peek)
      | (name, rest) =>
          let key := String.ofList name
          let after ← expect ':' (.fieldType key) { s with rest }
          let (t, after) ← item after
          if Named.has found key then faultAt s (.duplicateField key)
          else
            let found := found ++ [(key, t)]
            let after := after.skipBlanks
            match after.rest with
            | ',' :: rest => readFields item steps found { after with rest }
            | _ => return (found, after)

def isEnumStop (c : Char) : Bool := c == ',' || c == ']'

def readEnumValue (s : TypeCursor) : Except TypeStop (List Char × List Char) :=
  match s.rest with
  | '\'' :: rest =>
      match TypeText.splitQuoted '\'' rest with
      | (none, _) => faultAt s .unterminatedEnumText
      | (some text, rest) => .ok (text, rest)
  | '"' :: rest =>
      match TypeText.splitQuoted '"' rest with
      | (none, _) => faultAt s .unterminatedEnumText
      | (some text, rest) => .ok (text, rest)
  | cs =>
      let (raw, rest) := TypeText.splitBare isEnumStop 0 cs
      let value := Text.trim raw
      if value.isEmpty then faultAt { s with rest } (.expectedEnumValue rest.head?)
      else if !Literal.isEnumWord value then
        faultAt s (.invalidEnumValue (String.ofList value))
      else .ok (value, rest)

/-- One or more values of an enumeration, separated by commas; a repeated one is an issue. -/
def readEnumValues : Nat → List String → TypeReader (List String)
  | 0, found, s => return (found, s)
  | steps + 1, found, s => do
      let s := s.skipBlanks
      let (text, rest) ← readEnumValue s
      let value := String.ofList text
      let (found, after) :=
        if found.contains value then
          (found, s.note (.duplicateEnumValue value) s.left)
        else (found ++ [value], s)
      let after := { after with rest := Text.skipBlanks rest }
      match after.rest with
      | ',' :: rest => readEnumValues steps found { after with rest }
      | _ => return (found, after)

/-- What stands in the brackets of a composite type, whose name begins where `nameLeft` characters
are left. -/
def readComposite (item : TypeReader TypeExpr) (composite : Composite) (name : String)
    (nameLeft : Nat) (s : TypeCursor) : Except TypeStop (TypeExpr × TypeCursor) := do
  let close := expect ']' (.closing name nameLeft)
  let wrongCount (keyed : Bool) (count : Nat) : Except TypeStop (TypeExpr × TypeCursor) :=
    .error (.fault ⟨.argumentCount name keyed count, nameLeft⟩)
  match composite with
  | .enum =>
      let (values, s) ← readEnumValues (s.left + 1) [] s
      return (.enum values [], ← close s)
  | .reference =>
      let s := s.skipBlanks
      match TypeText.splitName s.rest with
      | ([], _) => faultAt s (.expectedEntityName s.peek)
      | (target, rest) =>
          return (.reference (String.ofList target) [], ← close { s with rest })
  | .object =>
      let s := s.skipBlanks
      match s.rest with
      | ']' :: _ => return (.object [] [], ← close s)
      | _ =>
          let (fields, s) ← readFields item (s.left + 1) [] s
          return (.object fields [], ← close s)
  | .map =>
      match ← readArguments item (s.left + 1) s with
      | ([key, value], s) => return (.map key value [], ← close s)
      | (arguments, _) => wrongCount true arguments.length
  | .array =>
      match ← readArguments item (s.left + 1) s with
      | ([element], s) => return (.array element [], ← close s)
      | (arguments, _) => wrongCount false arguments.length
  | .optional =>
      match ← readArguments item (s.left + 1) s with
      | ([inner], s) => return (.optional inner [], ← close s)
      | (arguments, _) => wrongCount false arguments.length

def readForm (item : TypeReader TypeExpr) (s : TypeCursor) :
    Except TypeStop (TypeExpr × TypeCursor) := do
  let s := s.skipBlanks
  match TypeText.splitName s.rest with
  | ([], _) => faultAt s (.expectedTypeName s.peek)
  | (chars, rest) =>
      let name := String.ofList chars
      let after := { s with rest := Text.skipBlanks rest }
      match after.rest, keyword? name with
      | '[' :: rest, some composite =>
          readComposite item composite name s.left { after with rest }
      | '[' :: _, none => faultAt after (.takesNoArguments name)
      | _, some .object => return (.object [] [], after)
      | _, some _ => faultAt after (.requiresArguments name)
      | _, none =>
          if isPrimitive name then return (.primitive name.toLower [], after)
          else return (.custom name [], after)

/-- A type for which so many levels of nesting are left, its own among them. -/
def readType (limit : Int) : Nat → TypeReader TypeExpr
  | 0, s => faultAt s (.tooDeep limit)
  | depth + 1, s => do
      let (t, s) ← readForm (readType limit depth) s
      readSuffixes limit s.left depth t s

/-- What may follow a whole type: blanks, and closing braces that belong to no block. -/
def readTrailing : List Char → List TypeIssue → Except TypeStop (List TypeIssue)
  | [], issues => .ok issues
  | c :: rest, issues =>
      if Text.isBlank c then readTrailing rest issues
      else if c == '\x7d' then
        readTrailing rest (issues ++ [⟨.unopenedBlock, rest.length + 1⟩])
      else .error (.fault ⟨.unexpected (some c), rest.length + 1⟩)

def readWhole (limit : Int) (text : List Char) :
    Except TypeStop (TypeExpr × List TypeIssue) := do
  let s : TypeCursor := ⟨Text.skipBlanks text, []⟩
  if s.rest.isEmpty then faultAt s .emptyText
  else
    let (t, s) ← readType limit (limit + 1).toNat s
    return (t, ← readTrailing s.rest s.issues)

end TypeExpr

/-- A type as it was read, and what was wrong with its text. -/
structure TypeReading where
  expression : Option TypeExpr
  diagnostics : List Diagnostic

namespace TypeReading

def isClean (r : TypeReading) : Bool := r.expression.isSome && r.diagnostics.isEmpty

def ofFault (path text : String) (total : Nat) (fault : TypeFault) : TypeReading :=
  let column := columnAt total fault.left
  ⟨none,
    [(Diagnostic.syntaxError path
      ("invalid type expression '" ++ text ++ "': " ++ fault.kind.message total ++ " at column " ++
        toString column) fault.kind.suggestion).atColumn column]⟩

def ofIssue (path text : String) (total : Nat) (issue : TypeIssue) : Diagnostic :=
  let column := columnAt total issue.left
  (Diagnostic.schemaError path
    ("type expression '" ++ text ++ "': " ++ issue.kind.message total ++ " at column " ++
      toString column) issue.kind.suggestion).atColumn column

end TypeReading

def TypeExpr.parse (text : String) (path : String := "") (limit : Int := TypeExpr.defaultLimit) :
    Except Failure TypeReading :=
  let chars := text.toList
  match TypeExpr.readWhole limit chars with
  | .ok (t, issues) => .ok ⟨some t, issues.map (TypeReading.ofIssue path text chars.length)⟩
  | .error (.fault fault) => .ok (TypeReading.ofFault path text chars.length fault)
  | .error (.failure failure) => .error failure

end AppSpec
