import AppSpec.Json.Text
import AppSpec.Text.Utf8
import AppSpec.TypeExpr.Literal
import AppSpec.Yaml.Token

/-!
Reading anchors, aliases, tags and directives.
-/

namespace AppSpec.Yaml

def isNameChar (c : Char) : Bool :=
  Literal.isLetter c || Literal.isAsciiDigit c || c == '-' || c == '_'

def isUriChar (c : Char) : Bool :=
  Literal.isLetter c || Literal.isAsciiDigit c || "-;/?:@&=+$,_.!~*'()[]".toList.contains c

namespace Cursor

/-- Whether a gap without tabs, or the end, comes next. -/
def atWordEnd (c : Cursor) : Bool := c.atEnd || isSpace c.peek || isBreak c.peek

def atLineEnd (c : Cursor) : Bool := c.atEnd || isBreak c.peek

def atAnchorEnd (c : Cursor) : Bool :=
  c.atEnd || isGap c.peek || "?:,]\x7d%@\x60".toList.contains c.peek

end Cursor

def wanted {α : Type} (activity : Activity) (since : Mark) (what : Wanted) (c : Cursor) :
    Except Stop α :=
  stopIn .token activity since (.wanted what c.peek) c.mark

def anchor (c : Cursor) : Except Stop (Token × Cursor) :=
  let isAlias := c.peek == '*'
  let (name, rest) := c.next.span isNameChar
  if name.isEmpty || !rest.atAnchorEnd then
    wanted (if isAlias then .alias else .anchor) c.mark .nameCharacter rest
  else
    let name := String.ofList name
    .ok (⟨if isAlias then .alias name else .anchor name, c.mark, rest.mark⟩, rest)

def isHexDigit (c : Char) : Bool := (Json.hexValue? c).isSome

def escapedBytes (activity : Activity) (since : Mark) :
    Nat → Cursor → Except Stop (List Nat × Cursor)
  | 0, c => .ok ([], c)
  | steps + 1, c =>
      if c.peek != '%' then .ok ([], c)
      else
        let c := c.next
        match c.rest.take 2, (c.rest.take 2).find? fun d => !isHexDigit d with
        | [high, low], none => do
            let (bytes, rest) ← escapedBytes activity since steps (c.advance 2)
            return ((Json.hexNumber? [high, low]).getD 0 :: bytes, rest)
        | _, odd =>
            stopIn .token activity since (.wanted .uriEscape (odd.getD endOfText)) c.mark

def escapedText (activity : Activity) (since : Mark) (c : Cursor) :
    Except Stop (List Char × Cursor) := do
  let (bytes, rest) ← escapedBytes activity since c.rest.length c
  match Text.Utf8.decode bytes with
  | .ok cs => return (cs, rest)
  | .error f => stopIn .token activity since (.undecodable f.text) c.mark

def uriText (activity : Activity) (since : Mark) : Nat → Cursor → Except Stop (List Char × Cursor)
  | 0, c => .ok ([], c)
  | steps + 1, c => do
      let (run, rest) := c.span isUriChar
      if rest.peek != '%' then return (run, rest)
      else
        let (escaped, rest) ← escapedText activity since rest
        let (more, rest) ← uriText activity since steps rest
        return (run ++ escaped ++ more, rest)

/-- The part of a tag that names it, or what a handle stands for. -/
def uri (activity missing : Activity) (since : Mark) (c : Cursor) :
    Except Stop (String × Cursor) := do
  if isUriChar c.peek || c.peek == '%' then
    let (cs, rest) ← uriText activity since (c.rest.length + 1) c
    return (String.ofList cs, rest)
  else wanted missing since .uri c

/-- A handle: a name between exclamation marks, or one mark alone before a space. -/
def handle (activity : Activity) (since : Mark) (c : Cursor) : Except Stop (String × Cursor) :=
  if c.peek != '!' then wanted activity since .exclamation c
  else if c.next.peek == ' ' then .ok ("!", c.next)
  else
    let (name, rest) := c.next.span isNameChar
    if rest.peek != '!' then wanted activity since .exclamation rest
    else .ok (String.ofList ('!' :: (name ++ ['!'])), rest.next)

def hasHandle (c : Cursor) : Bool :=
  (c.next.rest.takeWhile fun ch => !(isSpace ch || isBreak ch)).contains '!'

def tagParts (c : Cursor) : Except Stop (Option String × String × Cursor) := do
  if c.next.peek == '<' then
    let (rest, d) ← uri .tag .tagUri c.mark (c.advance 2)
    if d.peek != '>' then wanted .tagUri c.mark .closingAngle d
    else return (none, rest, d.next)
  else if startsWithGap c.next.rest then return (none, "!", c.next)
  else
    let (own, d) ← if hasHandle c then handle .tag c.mark c else pure ("!", c.next)
    let (rest, d) ← uri .tag .tagUri c.mark d
    return (some own, rest, d)

def tag (c : Cursor) : Except Stop (Token × Cursor) := do
  let (own, rest, d) ← tagParts c
  if d.atWordEnd then return (⟨.tag own rest, c.mark, d.mark⟩, d)
  else wanted .tag c.mark .space d

def versionNumber (since : Mark) (c : Cursor) : Except Stop (Nat × Cursor) :=
  let (digits, rest) := c.span Literal.isAsciiDigit
  if digits.isEmpty then wanted .directive since .digit c
  else if Text.maxIntegerDigits < digits.length then .error (.failure .integerTooLong)
  else .ok (Text.natOfDigits digits, rest)

def version (since : Mark) (c : Cursor) : Except Stop (Directive × Cursor) := do
  let (major, c) ← versionNumber since (c.skip isSpace)
  if c.peek != '.' then wanted .directive since .digitOrPoint c
  else
    let (minor, c) ← versionNumber since c.next
    if c.atWordEnd then return (.version major minor, c)
    else wanted .directive since .digitOrSpace c

def tagDirective (since : Mark) (c : Cursor) : Except Stop (Directive × Cursor) := do
  let (own, c) ← handle .directive since (c.skip isSpace)
  if c.peek != ' ' then wanted .directive since .space c
  else
    let (rest, c) ← uri .directive .directiveUri since (c.skip isSpace)
    if c.atWordEnd then return (.tag own rest, c) else wanted .directive since .space c

/-- Skips what may follow in a line where no token does. -/
def endLine (activity : Activity) (since : Mark) (c : Cursor) : Except Stop Cursor :=
  let c := c.skipComment
  if c.atLineEnd then .ok ((c.lineBreak?.map (·.2)).getD c)
  else wanted activity since .commentOrBreak c

def directive (c : Cursor) : Except Stop (Token × Cursor) := do
  let (name, d) := c.next.span isNameChar
  if name.isEmpty || !d.atWordEnd then wanted .directive c.mark .nameCharacter d
  else
    let name := String.ofList name
    let (content, d) ←
      if name == "YAML" then version c.mark d
      else if name == "TAG" then tagDirective c.mark d
      else pure (.other name, d.skipLine)
    let e ← endLine .directive c.mark d
    return (⟨.directive content, c.mark, d.mark⟩, e)

end AppSpec.Yaml
