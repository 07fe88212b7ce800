import AppSpec.Text.Quoted

/-!
Reading UTF-8: the characters that bytes stand for, or the first bytes that stand for none.
-/

namespace AppSpec.Text.Utf8

inductive Cause where
  | start
  | continuation
  | ending
  deriving DecidableEq, Repr

/-- The faulty bytes: the first one, where it stands, and how many there are. -/
structure Fault where
  cause : Cause
  byte : Nat
  position : Nat
  count : Nat
  deriving DecidableEq, Repr

def Cause.text : Cause → String
  | .start => "invalid start byte"
  | .continuation => "invalid continuation byte"
  | .ending => "unexpected end of data"

def Fault.text (f : Fault) : String :=
  "'utf-8' codec can't decode " ++
    (if f.count == 1 then
      "byte 0x" ++ String.ofList (hexDigits 2 f.byte) ++ " in position " ++ toString f.position
    else
      "bytes in position " ++ toString f.position ++ "-" ++ toString (f.position + f.count - 1)) ++
    ": " ++ f.cause.text

/-- How a character starts: its first bits, how many bytes follow, and the range of the first. -/
structure Lead where
  bits : Nat
  more : Nat
  low : Nat
  high : Nat

def lead? (b : Nat) : Option Lead :=
  if b < 0x80 then some ⟨b, 0, 0x80, 0xBF⟩
  else if b < 0xC2 then none
  else if b < 0xE0 then some ⟨b - 0xC0, 1, 0x80, 0xBF⟩
  else if b < 0xF0 then
    some ⟨b - 0xE0, 2, if b == 0xE0 then 0xA0 else 0x80, if b == 0xED then 0x9F else 0xBF⟩
  else if b < 0xF5 then
    some ⟨b - 0xF0, 3, if b == 0xF0 then 0x90 else 0x80, if b == 0xF4 then 0x8F else 0xBF⟩
  else none

/-- The code that the following bytes complete, or why they do not and how many of them fit. -/
def complete (code low high : Nat) : Nat → List Nat → Except (Cause × Nat) Nat
  | 0, _ => .ok code
  | _ + 1, [] => .error (.ending, 0)
  | more + 1, b :: bs =>
      if low ≤ b && b ≤ high then
        (complete (code * 64 + (b - 0x80)) 0x80 0xBF more bs).mapError fun e => (e.1, e.2 + 1)
      else .error (.continuation, 0)

def decodeFrom (position : Nat) : Nat → List Nat → Except Fault (List Char)
  | 0, _ => .ok []
  | _, [] => .ok []
  | steps + 1, b :: bs =>
      match lead? b with
      | none => .error ⟨.start, b, position, 1⟩
      | some l =>
          match complete l.bits l.low l.high l.more bs with
          | .error (cause, fitting) => .error ⟨cause, b, position, fitting + 1⟩
          | .ok code =>
              (decodeFrom (position + l.more + 1) steps (bs.drop l.more)).map (Char.ofNat code :: ·)

/-- The characters of a text given by its bytes. -/
def decode (bytes : List Nat) : Except Fault (List Char) := decodeFrom 0 bytes.length bytes

end AppSpec.Text.Utf8
