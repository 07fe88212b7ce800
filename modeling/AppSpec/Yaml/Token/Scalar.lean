import AppSpec.Yaml.Token.Property

/-!
Reading scalars: plain, quoted and in blocks. A line break inside a scalar folds to a space, and an
empty line to a break.
-/

namespace AppSpec.Yaml

/-! Plain scalars -/

def isFlowIndicator (c : Char) : Bool := ",[]\x7b\x7d".toList.contains c

/-- Whether a plain scalar ends before a character with others after it. -/
def endsPlain (inFlow : Bool) (c : Char) (rest : List Char) : Bool :=
  isGap c ||
    (c == ':' && (startsWithGap rest || (inFlow && (rest.head?.map isFlowIndicator).getD false))) ||
    (inFlow && (isFlowIndicator c || c == '?'))

def plainFrom (inFlow : Bool) : List Char → Mark → List Char × Cursor
  | [], m => ([], ⟨[], m⟩)
  | c :: cs, m =>
      if endsPlain inFlow c cs then ([], ⟨c :: cs, m⟩)
      else
        let (run, rest) := plainFrom inFlow cs (m.after c cs)
        (c :: run, rest)

/-- What separates the runs of a plain scalar: empty where the scalar ends. -/
structure Separation where
  chars : List Char
  newLine : Bool
  rest : Cursor

def separation (c : Cursor) : Separation :=
  let (spaces, c) := c.span isSpace
  match c.lineBreak? with
  | none => ⟨spaces, false, c⟩
  | some (first, c) =>
      let (breaks, c, stopped) :=
        c.emptyLines (·.skip isSpace) Cursor.atDocumentMarker (c.rest.length + 1)
      ⟨if stopped then [] else Cursor.folded first breaks, true, c⟩

/-- A plain scalar read so far, its last character first; `newLine` tells whether it is followed by
the start of a line. -/
structure PlainReading where
  reversed : List Char
  newLine : Bool
  stop : Mark
  rest : Cursor

def plainRuns (inFlow : Bool) (indent : Int) : Nat → PlainReading → List Char → PlainReading
  | 0, r, _ => r
  | steps + 1, r, spaces =>
      let c := r.rest
      if c.peek == '#' then r
      else
        match plainFrom inFlow c.rest c.mark with
        | ([], _) => r
        | (run, d) =>
            let s := separation d
            let next : PlainReading :=
              ⟨run.reverse ++ (spaces.reverse ++ r.reversed), s.newLine, d.mark, s.rest⟩
            if s.chars.isEmpty || s.rest.peek == '#' || (!inFlow && decide (s.rest.column < indent))
            then next
            else plainRuns inFlow indent steps next s.chars

def plainScalar (inFlow : Bool) (indent : Int) (c : Cursor) : PlainReading :=
  plainRuns inFlow indent (c.rest.length + 1) ⟨[], false, c.mark, c⟩ []

/-! Quoted scalars -/

def simpleEscape? : Char → Option Char
  | '0' => some '\x00'
  | 'a' => some '\x07'
  | 'b' => some '\x08'
  | 't' => some '\t'
  | '\t' => some '\t'
  | 'n' => some '\n'
  | 'v' => some '\x0b'
  | 'f' => some '\x0c'
  | 'r' => some '\r'
  | 'e' => some '\x1b'
  | ' ' => some ' '
  | '"' => some '"'
  | '\\' => some '\\'
  | '/' => some '/'
  | 'N' => some '\x85'
  | '_' => some '\xa0'
  | 'L' => some '\u2028'
  | 'P' => some '\u2029'
  | _ => none

def codeLength? : Char → Option Nat
  | 'x' => some 2
  | 'u' => some 4
  | 'U' => some 8
  | _ => none

def quotedBreaks (since : Mark) (c : Cursor) : Except Stop (List Char × Cursor) :=
  let (breaks, d, stopped) :=
    c.emptyLines (·.skip isSpaceOrTab) Cursor.atDocumentMarker (c.rest.length + 1)
  if stopped then stopIn .token .quotedScalar since .documentMarker d.mark else .ok (breaks, d)

def quotedGap (since : Mark) (c : Cursor) : Except Stop (List Char × Cursor) := do
  let (spaces, c) := c.span isSpaceOrTab
  if c.atEnd then stopIn .token .quotedScalar since .endOfStream c.mark
  else
    match c.lineBreak? with
    | none => return (spaces, c)
    | some (first, c) =>
        let (breaks, c) ← quotedBreaks since c
        return (Cursor.folded first breaks, c)

def maxCode : Nat := 0x10FFFF

/-- Larger codes are not looked at as codes of characters. -/
def maxWord : Nat := 0x7FFFFFFF

/-- The low half of a character that an escape gives behind one with the high half. -/
def lowHalf? : List Char → Option Nat
  | '\\' :: 'u' :: cs =>
      if (cs.take 4).length < 4 then none
      else (Json.hexNumber? (cs.take 4)).filter Json.isLowSurrogate
  | _ => none

/-- The character of a code, where two codes may stand for one character, and how much of the text
behind the first code belongs to it. -/
def codeCharacter (code : Nat) (rest : List Char) : Char × Nat :=
  match (if Json.isHighSurrogate code then lowHalf? rest else none) with
  | some low => (Char.ofNat (Json.joinSurrogates code low), 6)
  | none => (Char.ofNat code, 0)

def codeEscape (since : Mark) (length : Nat) (c : Cursor) : Except Stop (List Char × Cursor) :=
  let digits := c.rest.take length
  match digits.find? fun d => !isHexDigit d with
  | some odd =>
      stopIn .token .doubleQuotedScalar since (.wanted (.hexEscape length) odd) c.mark
  | none =>
      if digits.length < length then
        stopIn .token .doubleQuotedScalar since (.wanted (.hexEscape length) endOfText) c.mark
      else
        let code := (Json.hexNumber? digits).getD 0
        if maxWord < code then .error (.failure .codeTooLarge)
        else if maxCode < code then .error (.failure .noSuchCharacter)
        else
          let c := c.advance length
          let (ch, more) := codeCharacter code c.rest
          .ok ([ch], c.advance more)

def escape (since : Mark) (c : Cursor) : Except Stop (List Char × Cursor) :=
  match simpleEscape? c.peek, codeLength? c.peek with
  | some e, _ => .ok ([e], c.next)
  | none, some length => codeEscape since length c.next
  | none, none =>
      match c.lineBreak? with
      | some (_, d) => quotedBreaks since d
      | none => stopIn .token .doubleQuotedScalar since (.unknownEscape c.peek) c.mark

def quotedFrom (double : Bool) (since : Mark) :
    Nat → List Char → Cursor → Except Stop (List Char × Cursor)
  | 0, _, c => stopIn .token .quotedScalar since .endOfStream c.mark
  | steps + 1, done, c =>
      let ch := c.peek
      if c.atEnd || isGap ch then do
        let (cs, c) ← quotedGap since c
        quotedFrom double since steps (cs.reverse ++ done) c
      else if double && ch == '\\' then do
        let (cs, c) ← escape since c.next
        quotedFrom double since steps (cs.reverse ++ done) c
      else if double && ch == '"' then .ok (done.reverse, c.next)
      else if !double && ch == '\'' then
        if c.next.peek == '\'' then quotedFrom double since steps ('\'' :: done) (c.advance 2)
        else .ok (done.reverse, c.next)
      else quotedFrom double since steps (ch :: done) c.next

def quotedScalar (c : Cursor) : Except Stop (Token × Cursor) := do
  let double := c.peek == '"'
  let (cs, d) ← quotedFrom double c.mark (c.rest.length + 1) [] c.next
  let style : Style := if double then .doubleQuoted else .singleQuoted
  return (⟨.scalar (String.ofList cs) style, c.mark, d.mark⟩, d)

/-! Block scalars -/

/-- What is done with the line breaks at the end of a block scalar. -/
inductive Chomping where
  | strip
  | clip
  | keep
  deriving DecidableEq, Repr

structure BlockHeader where
  chomping : Chomping
  indentation : Option Nat

def chomping? : Char → Option Chomping
  | '+' => some .keep
  | '-' => some .strip
  | _ => none

def indentation? (since : Mark) (c : Cursor) : Except Stop (Option Nat × Cursor) :=
  if c.peek == '0' then stopIn .token .blockScalar since .zeroIndentation c.mark
  else if Literal.isAsciiDigit c.peek then .ok (some (c.peek.toNat - 48), c.next)
  else .ok (none, c)

/-- The indicators behind the first one, in either order. -/
def blockIndicators (since : Mark) (c : Cursor) : Except Stop (BlockHeader × Cursor) :=
  match chomping? c.peek with
  | some chomping => do
      let (indentation, c) ← indentation? since c.next
      return (⟨chomping, indentation⟩, c)
  | none => do
      let (indentation, c) ← indentation? since c
      match indentation, chomping? c.peek with
      | some n, some chomping => return (⟨chomping, some n⟩, c.next)
      | _, _ => return (⟨.clip, indentation⟩, c)

def blockHeader (since : Mark) (c : Cursor) : Except Stop (BlockHeader × Cursor) := do
  let (header, c) ← blockIndicators since c
  if c.atWordEnd then return (header, ← endLine .blockScalar since c)
  else wanted .blockScalar since .scalarIndicators c

def skipTo (indent : Int) : Nat → Cursor → Cursor
  | 0, c => c
  | steps + 1, c =>
      if c.column < indent && c.peek == ' ' then skipTo indent steps c.next else c

def blockBreaks (indent : Int) (c : Cursor) : List Char × Cursor :=
  let (breaks, d, _) :=
    c.emptyLines (skipTo indent indent.toNat) (fun _ => false) (c.rest.length + 1)
  (breaks, d)

/-- The empty lines before a block scalar, and the widest indentation among them and its first
line. -/
def leadingLines : Nat → Cursor → List Char × Int × Cursor
  | 0, c => ([], 0, c)
  | steps + 1, c =>
      let (spaces, d) := c.span isSpace
      let width := if spaces.isEmpty then 0 else d.column
      match d.lineBreak? with
      | none => ([], width, d)
      | some (b, e) =>
          let (breaks, widest, rest) := leadingLines steps e
          (b :: breaks, max width widest, rest)

/-- A block scalar read so far, its last character first, with the line breaks behind it. -/
structure BlockReading where
  reversed : List Char
  last : List Char
  breaks : List Char
  rest : Cursor

/-- What joins a line to the next one in a block scalar. -/
def lineJoint (isFolded indented : Bool) (first : List Char) (breaks : List Char) : List Char :=
  if isFolded && first == ['\n'] && !indented then (if breaks.isEmpty then [' '] else [])
  else first

def blockLines (isFolded : Bool) (indent : Int) : Nat → BlockReading → BlockReading
  | 0, r => r
  | steps + 1, r =>
      let c := r.rest
      if c.column != indent || c.atEnd then r
      else
        let (line, d) := c.span fun ch => !isBreak ch
        let (first, e) :=
          match d.lineBreak? with
          | some (b, e) => ([b], e)
          | none => ([], d)
        let (breaks, f) := blockBreaks indent e
        let reversed := line.reverse ++ (r.breaks.reverse ++ r.reversed)
        if f.column == indent && !f.atEnd then
          let indented := isSpaceOrTab c.peek || isSpaceOrTab f.peek
          let joint := lineJoint isFolded indented first breaks
          blockLines isFolded indent steps ⟨joint.reverse ++ reversed, first, breaks, f⟩
        else ⟨reversed, first, breaks, f⟩

def chomped (chomping : Chomping) (r : BlockReading) : List Char :=
  match chomping with
  | .strip => r.reversed.reverse
  | .clip => r.reversed.reverse ++ r.last
  | .keep => r.reversed.reverse ++ r.last ++ r.breaks

def blockScalar (outer : Int) (c : Cursor) : Except Stop (Token × Cursor) := do
  let isFolded := c.peek == '>'
  let (header, d) ← blockHeader c.mark c.next
  let least := max (outer + 1) 1
  let (indent, breaks, d) :=
    match header.indentation with
    | some n =>
        let indent := least + n - 1
        (indent, blockBreaks indent d)
    | none =>
        let (breaks, widest, d) := leadingLines (d.rest.length + 1) d
        (max least widest, breaks, d)
  let r := blockLines isFolded indent (d.rest.length + 1) ⟨[], [], breaks, d⟩
  let style : Style := if isFolded then .folded else .literal
  return (⟨.scalar (String.ofList (chomped header.chomping r)) style, c.mark, r.rest.mark⟩, r.rest)

end AppSpec.Yaml
