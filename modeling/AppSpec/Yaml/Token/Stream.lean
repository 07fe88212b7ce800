import AppSpec.Yaml.Token.Scalar

/-!
The tokens of a text. A token that may turn out to be a key without an indicator is held back, with
those behind it, until a colon follows it in its line or can follow no more.
-/

namespace AppSpec.Yaml

/-- A token that may be a key: its number among the tokens, and its place. A required one has to be
followed by a colon. -/
structure SimpleKey where
  number : Nat
  required : Bool
  mark : Mark

/-- The tokens read so far, the held back ones apart, and what the next ones depend on. -/
structure TokenStream where
  cursor : Cursor
  flow : Int := 0
  indent : Int := -1
  indents : List Int := []
  keyAllowed : Bool := true
  keys : List (Int × SimpleKey) := []
  sent : List Token := []
  sentCount : Nat := 0
  held : List Token := []
  ended : Bool := false

namespace TokenStream

def inFlow (s : TokenStream) : Bool := s.flow != 0

def mark (s : TokenStream) : Mark := s.cursor.mark

def push (s : TokenStream) (t : Token) : TokenStream := { s with held := s.held ++ [t] }

def pushAt (s : TokenStream) (kind : TokenKind) (m : Mark) : TokenStream := s.push ⟨kind, m, m⟩

def insertAt (s : TokenStream) (number : Nat) (kind : TokenKind) (m : Mark) : TokenStream :=
  let place := number - s.sentCount
  { s with held := s.held.take place ++ ⟨kind, m, m⟩ :: s.held.drop place }

def forbidKey (s : TokenStream) : TokenStream := { s with keyAllowed := false }

def indicator (s : TokenStream) (length : Nat) (kind : TokenKind) : TokenStream :=
  let rest := s.cursor.advance length
  { s.push ⟨kind, s.mark, rest.mark⟩ with cursor := rest }

/-- How many characters a key without an indicator may have. -/
def maxKeyLength : Nat := 1024

def isStale (m : Mark) (k : SimpleKey) : Bool :=
  k.mark.line != m.line || decide (maxKeyLength < m.index - k.mark.index)

def missingColon {α : Type} (k : SimpleKey) (m : Mark) : Except Stop α :=
  stopIn .token .simpleKey k.mark .noColon m

/-- Gives up the keys that no colon can follow any more. -/
def dropStale (s : TokenStream) : Except Stop TokenStream :=
  let (stale, keys) := s.keys.partition fun k => isStale s.mark k.2
  match stale.find? fun k => k.2.required with
  | some k => missingColon k.2 s.mark
  | none => .ok { s with keys }

def key? (s : TokenStream) : Option SimpleKey :=
  (s.keys.find? fun k => k.1 == s.flow).map (·.2)

def withoutKey (s : TokenStream) : TokenStream :=
  { s with keys := s.keys.filter fun k => k.1 != s.flow }

def dropKey (s : TokenStream) : Except Stop TokenStream :=
  match s.key? with
  | none => .ok s
  | some k => if k.required then missingColon k s.mark else .ok s.withoutKey

def saveKey (s : TokenStream) : Except Stop TokenStream := do
  if !s.keyAllowed then return s
  let required := !s.inFlow && s.indent == s.cursor.column
  let s ← s.dropKey
  return { s with
    keys := s.keys ++ [(s.flow, ⟨s.sentCount + s.held.length, required, s.mark⟩)] }

def unwindTo (column : Int) : List Int → TokenStream → TokenStream
  | [], s => { s with indents := [] }
  | outer :: rest, s =>
      if column < s.indent then
        unwindTo column rest { s.pushAt .blockEnd s.mark with indent := outer }
      else { s with indents := outer :: rest }

/-- Ends the block collections that are indented more than a column. -/
def unwind (s : TokenStream) (column : Int) : TokenStream :=
  if s.inFlow then s else unwindTo column s.indents s

def isDeeper (s : TokenStream) (column : Int) : Bool := decide (s.indent < column)

def indentTo (s : TokenStream) (column : Int) : TokenStream :=
  { s with indents := s.indent :: s.indents, indent := column }

/-- Starts a block collection here where the column is a new one. -/
def openBlock (s : TokenStream) (kind : TokenKind) : TokenStream :=
  if !s.inFlow && s.isDeeper s.cursor.column then
    (s.indentTo s.cursor.column).pushAt kind s.mark
  else s

def skipFrom (inComment newLine : Bool) : List Char → Mark → Bool × Cursor
  | [], m => (newLine, ⟨[], m⟩)
  | c :: cs, m =>
      if isBreak c then skipFrom false true cs (m.after c cs)
      else if inComment || c == ' ' then skipFrom inComment newLine cs (m.after c cs)
      else if c == '#' then skipFrom true newLine cs (m.after c cs)
      else (newLine, ⟨c :: cs, m⟩)

/-- Skips blanks, comments and line breaks, and a byte order mark at the very start. -/
def skipToToken (s : TokenStream) : TokenStream :=
  let c := s.cursor
  let c := if c.mark.index == 0 && c.peek == byteOrderMark then c.next else c
  let (newLine, c) := skipFrom false false c.rest c.mark
  { s with cursor := c, keyAllowed := s.keyAllowed || (newLine && !s.inFlow) }

def endStream (s : TokenStream) : Except Stop TokenStream := do
  let s ← (s.unwind (-1)).dropKey
  return { s.forbidKey.pushAt .streamEnd s.mark with keys := [], ended := true }

def startDirective (s : TokenStream) : Except Stop TokenStream := do
  let s ← (s.unwind (-1)).dropKey
  let (t, rest) ← directive s.cursor
  return { s.forbidKey.push t with cursor := rest }

def documentMarker (s : TokenStream) (kind : TokenKind) : Except Stop TokenStream := do
  let s ← (s.unwind (-1)).dropKey
  return s.forbidKey.indicator 3 kind

def startFlow (s : TokenStream) (kind : TokenKind) : Except Stop TokenStream := do
  let s ← s.saveKey
  return { s with flow := s.flow + 1, keyAllowed := true }.indicator 1 kind

def endFlow (s : TokenStream) (kind : TokenKind) : Except Stop TokenStream := do
  let s ← s.dropKey
  return { s with flow := s.flow - 1, keyAllowed := false }.indicator 1 kind

def flowEntry (s : TokenStream) : Except Stop TokenStream := do
  let s ← s.dropKey
  return { s with keyAllowed := true }.indicator 1 .flowEntry

def notAllowed (s : TokenStream) (problem : Problem) : Except Stop TokenStream :=
  if !s.inFlow && !s.keyAllowed then stopAt .token problem s.mark else .ok s

def blockEntry (s : TokenStream) : Except Stop TokenStream := do
  let s ← s.notAllowed .entryNotAllowed
  let s ← (s.openBlock .blockSequenceStart).dropKey
  return { s with keyAllowed := true }.indicator 1 .blockEntry

def explicitKey (s : TokenStream) : Except Stop TokenStream := do
  let s ← s.notAllowed .keyNotAllowed
  let s ← (s.openBlock .blockMappingStart).dropKey
  return { s with keyAllowed := !s.inFlow }.indicator 1 .key

def simpleValue (s : TokenStream) (k : SimpleKey) : TokenStream :=
  let s := s.withoutKey.insertAt k.number .key k.mark
  let s :=
    if !s.inFlow && s.isDeeper k.mark.column then
      (s.indentTo k.mark.column).insertAt k.number .blockMappingStart k.mark
    else s
  s.forbidKey.indicator 1 .value

def value (s : TokenStream) : Except Stop TokenStream := do
  match s.key? with
  | some k => return s.simpleValue k
  | none =>
      let s ← s.notAllowed .valueNotAllowed
      let s ← (s.openBlock .blockMappingStart).dropKey
      return { s with keyAllowed := !s.inFlow }.indicator 1 .value

def keyToken (s : TokenStream) (read : Cursor → Except Stop (Token × Cursor)) :
    Except Stop TokenStream := do
  let s ← s.saveKey
  let (t, rest) ← read s.cursor
  return { s.forbidKey.push t with cursor := rest }

def block (s : TokenStream) : Except Stop TokenStream := do
  let s ← s.dropKey
  let (t, rest) ← blockScalar s.indent s.cursor
  return { s.push t with cursor := rest, keyAllowed := true }

def plain (s : TokenStream) : Except Stop TokenStream := do
  let s ← s.saveKey
  let r := plainScalar s.inFlow (s.indent + 1) s.cursor
  return { s.push ⟨.scalar (String.ofList r.reversed.reverse) .plain, s.mark, r.stop⟩ with
    cursor := r.rest, keyAllowed := r.newLine }

/-- Characters that start no plain scalar by themselves. -/
def isIndicator (c : Char) : Bool :=
  "-?:,[]\x7b\x7d#&*!|>'\"%@\x60".toList.contains c

def startsPlain (s : TokenStream) : Bool :=
  let c := s.cursor
  !(isGap c.peek || isIndicator c.peek) ||
    (!startsWithGap c.next.rest &&
      (c.peek == '-' || (!s.inFlow && (c.peek == '?' || c.peek == ':'))))

def tokenHere (s : TokenStream) : Except Stop TokenStream :=
  let c := s.cursor
  let alone := startsWithGap c.next.rest
  let atMarker := c.mark.column == 0 && c.atDocumentMarker
  match c.peek with
  | '%' => if c.mark.column == 0 then s.startDirective else other s
  | '-' =>
      if atMarker then s.documentMarker .documentStart
      else if alone then s.blockEntry
      else other s
  | '.' => if atMarker then s.documentMarker .documentEnd else other s
  | '[' => s.startFlow .flowSequenceStart
  | '\x7b' => s.startFlow .flowMappingStart
  | ']' => s.endFlow .flowSequenceEnd
  | '\x7d' => s.endFlow .flowMappingEnd
  | ',' => s.flowEntry
  | '?' => if s.inFlow || alone then s.explicitKey else other s
  | ':' => if s.inFlow || alone then s.value else other s
  | '*' => s.keyToken anchor
  | '&' => s.keyToken anchor
  | '!' => s.keyToken tag
  | '|' => if s.inFlow then other s else s.block
  | '>' => if s.inFlow then other s else s.block
  | '\'' => s.keyToken quotedScalar
  | '"' => s.keyToken quotedScalar
  | _ => other s
where
  other (s : TokenStream) : Except Stop TokenStream :=
    if s.startsPlain then s.plain
    else
      .error (.fault ⟨.token, some .nextToken, none, .noToken s.cursor.peek, s.mark⟩)

def fetch (s : TokenStream) : Except Stop TokenStream := do
  let s ← s.skipToToken.dropStale
  let s := s.unwind s.cursor.column
  if s.cursor.atEnd then s.endStream else s.tokenHere

/-- How many of the held back tokens come before every possible key. -/
def readyCount (s : TokenStream) : Nat :=
  s.keys.foldl (fun n k => min n (k.2.number - s.sentCount)) s.held.length

/-- Lets go the tokens that no key can come before any more. -/
def send (s : TokenStream) : TokenStream :=
  let n := s.readyCount
  { s with
    sent := (s.held.take n).reverse ++ s.sent
    sentCount := s.sentCount + n
    held := s.held.drop n }

/-- The tokens of a text in their order, and why there are no more if the text does not end. -/
def run : Nat → TokenStream → List Token × Option Stop
  | 0, s => (s.sent.reverse, none)
  | steps + 1, s =>
      match s.fetch with
      | .error e => (s.sent.reverse, some e)
      | .ok s =>
          match s.dropStale with
          | .error e => (s.sent.reverse, some e)
          | .ok s =>
              let s := s.send
              if s.ended then (s.sent.reverse, none) else run steps s

end TokenStream

def tokens (cs : List Char) : List Token × Option Stop :=
  TokenStream.run (cs.length + 1) { cursor := .ofText cs }

end AppSpec.Yaml
