/-!
Places in a text, and reading a text from such a place on.
-/

namespace AppSpec.Yaml

/-- A place: how many characters, lines, and characters of its own line come before it. -/
structure Mark where
  index : Nat
  line : Nat
  column : Nat
  deriving DecidableEq, Repr

def endOfText : Char := '\x00'

def byteOrderMark : Char := '\uFEFF'

def isBreak (c : Char) : Bool :=
  c == '\n' || c == '\r' || c == '\x85' || c == '\u2028' || c == '\u2029'

def isSpace (c : Char) : Bool := c == ' '

def isSpaceOrTab (c : Char) : Bool := c == ' ' || c == '\t'

def isGap (c : Char) : Bool := isSpaceOrTab c || isBreak c

def startsWithGap (cs : List Char) : Bool := (cs.head?.map isGap).getD true

namespace Mark

def start : Mark := ⟨0, 0, 0⟩

/-- The place behind a character with others after it. A carriage return before a line feed does
not end a line, and a byte order mark has no width. -/
def after (m : Mark) (c : Char) (rest : List Char) : Mark :=
  if isBreak c && !(c == '\r' && rest.head? == some '\n') then ⟨m.index + 1, m.line + 1, 0⟩
  else if c == byteOrderMark then { m with index := m.index + 1 }
  else ⟨m.index + 1, m.line, m.column + 1⟩

theorem index_after (m : Mark) (c : Char) (rest : List Char) :
    (m.after c rest).index = m.index + 1 := by
  unfold after
  split
  · rfl
  · split <;> rfl

end Mark

structure Cursor where
  rest : List Char
  mark : Mark

namespace Cursor

def ofText (cs : List Char) : Cursor := ⟨cs, .start⟩

def column (c : Cursor) : Int := c.mark.column

def atEnd (c : Cursor) : Bool := c.rest.isEmpty

def peek (c : Cursor) : Char := c.rest.headD endOfText

def peekAt (c : Cursor) (n : Nat) : Char := (c.rest.drop n).headD endOfText

def next (c : Cursor) : Cursor :=
  match c.rest with
  | [] => c
  | ch :: rest => ⟨rest, c.mark.after ch rest⟩

def advance : Nat → Cursor → Cursor
  | 0, c => c
  | n + 1, c => advance n c.next

def spanFrom (p : Char → Bool) : List Char → Mark → List Char × Cursor
  | [], m => ([], ⟨[], m⟩)
  | c :: cs, m =>
      if p c then
        let (run, rest) := spanFrom p cs (m.after c cs)
        (c :: run, rest)
      else ([], ⟨c :: cs, m⟩)

theorem spanFrom_append (p : Char → Bool) (cs : List Char) (m : Mark) :
    (spanFrom p cs m).1 ++ (spanFrom p cs m).2.rest = cs := by
  induction cs generalizing m with
  | nil => rfl
  | cons c cs ih =>
      unfold spanFrom
      split
      · simp [ih]
      · rfl

def span (p : Char → Bool) (c : Cursor) : List Char × Cursor := spanFrom p c.rest c.mark

def skip (p : Char → Bool) (c : Cursor) : Cursor := (c.span p).2

def skipLine (c : Cursor) : Cursor := c.skip fun ch => !isBreak ch

def skipComment (c : Cursor) : Cursor :=
  let c := c.skip isSpace
  if c.peek == '#' then c.skipLine else c

def lineBreak? (c : Cursor) : Option (Char × Cursor) :=
  match c.rest with
  | [] => none
  | '\r' :: '\n' :: _ => some ('\n', c.next.next)
  | ch :: _ =>
      if ch == '\u2028' || ch == '\u2029' then some (ch, c.next)
      else if isBreak ch then some ('\n', c.next)
      else none

/-- Whether a line starts here that ends or starts a document. -/
def atDocumentMarker (c : Cursor) : Bool :=
  match c.rest with
  | '-' :: '-' :: '-' :: rest => startsWithGap rest
  | '.' :: '.' :: '.' :: rest => startsWithGap rest
  | _ => false

/-- Reads line breaks, each time skipping what may start a line; tells whether it stopped at the
start of a line where it had to. -/
def emptyLines (skip : Cursor → Cursor) (stop : Cursor → Bool) :
    Nat → Cursor → List Char × Cursor × Bool
  | 0, c => ([], c, false)
  | steps + 1, c =>
      if stop c then ([], c, true)
      else
        let c := skip c
        match c.lineBreak? with
        | none => ([], c, false)
        | some (b, c) =>
            let (breaks, c, stopped) := emptyLines skip stop steps c
            (b :: breaks, c, stopped)

/-- What line breaks become inside a scalar: one alone is a space, and of several the first goes. -/
def folded (first : Char) (breaks : List Char) : List Char :=
  if first != '\n' then first :: breaks
  else if breaks.isEmpty then [' ']
  else breaks

end Cursor

end AppSpec.Yaml
