import AppSpec.Text.Base64
import AppSpec.Yaml.Fault
import AppSpec.Yaml.Tag

/-!
The values of scalars by their tags.
-/

namespace AppSpec.Yaml

namespace ScalarValue

def truth? (text : String) : Option Bool :=
  let word := String.ofList (text.toList.map Char.toLower)
  if ["yes", "true", "on"].contains word then some true
  else if ["no", "false", "off"].contains word then some false
  else none

def ofFailure {α : Type} : Except Failure α → Except Stop α
  | .ok a => .ok a
  | .error f => .error (.failure f)

def isAscii (c : Char) : Bool := decide (c.toNat < 0x80)

/-- Tells which characters at the front of what is left have no place in an ASCII text. -/
def notAsciiText (before : Nat) (cs : List Char) : String :=
  let run := cs.takeWhile fun c => !isAscii c
  "'ascii' codec can't encode " ++
    (match run with
    | [c] =>
        "character '" ++ String.ofList (Text.escapeCode c.toNat) ++ "' in position " ++
          toString before
    | _ =>
        "characters in position " ++ toString before ++ "-" ++ toString (before + run.length - 1)) ++
    ": ordinal not in range(128)"

def bytes (text : String) (mark : Mark) : Except Stop (List UInt8) :=
  let cs := text.toList
  let ascii := cs.takeWhile isAscii
  match cs.drop ascii.length with
  | [] =>
      match Text.Base64.decode cs with
      | .ok bs => .ok bs
      | .error f => stopAt .value (.notBase64 f.text) mark
  | rest => stopAt .value (.notAscii (notAsciiText ascii.length rest)) mark

def moment (text : String) : Except Failure Scalar :=
  match WrittenMoment.read? text.toList with
  | some w => w.scalar
  | none => .error .noTimestamp

/-- The scalar of a kind that a text writes; the mark is that of its node. -/
def ofText (text : String) (mark : Mark) : Tag.ScalarKind → Except Stop Scalar
  | .str => .ok (.str text)
  | .null => .ok .null
  | .bool =>
      match truth? text with
      | some b => .ok (.bool b)
      | none => .error (.failure .noTruthValue)
  | .int => ofFailure ((Number.integer text.toList).map .int)
  | .float => ofFailure ((Number.real text.toList).map .float)
  | .timestamp => ofFailure (moment text)
  | .binary => (bytes text mark).map .bytes

end ScalarValue

end AppSpec.Yaml
