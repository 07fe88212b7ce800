import AppSpec.Json.Fault

/-!
Quoted text in JSON: what its escapes stand for, and where it ends.
-/

namespace AppSpec.Json

def hexValue? (c : Char) : Option Nat :=
  if '0' ≤ c && c ≤ '9' then some (c.toNat - 48)
  else if 'a' ≤ c && c ≤ 'f' then some (c.toNat - 87)
  else if 'A' ≤ c && c ≤ 'F' then some (c.toNat - 55)
  else none

def hexNumber? (cs : List Char) : Option Nat :=
  cs.foldl (fun n c => n.bind fun n => (hexValue? c).map (n * 16 + ·)) (some 0)

def isHighSurrogate (n : Nat) : Bool := decide (0xD800 ≤ n) && decide (n < 0xDC00)

def isLowSurrogate (n : Nat) : Bool := decide (0xDC00 ≤ n) && decide (n < 0xE000)

def joinSurrogates (high low : Nat) : Nat := 0x10000 + (high - 0xD800) * 0x400 + (low - 0xDC00)

def plainEscape? : Char → Option Char
  | '"' => some '"'
  | '\\' => some '\\'
  | '/' => some '/'
  | 'b' => some '\x08'
  | 'f' => some '\x0c'
  | 'n' => some '\n'
  | 'r' => some '\r'
  | 't' => some '\t'
  | _ => none

/-- The number written by the four digits at the front; something has to follow them. -/
def codeUnit (cs : List Char) : Except Stop Nat :=
  match (if (cs.drop 4).isEmpty then none else hexNumber? (cs.take 4)) with
  | some n => .ok n
  | none => .error (.fault ⟨.codePoint, cs.length + 1⟩)

def lowHalf? : List Char → Except Stop (Option Nat)
  | '\\' :: 'u' :: cs =>
      if (cs.drop 4).isEmpty then .ok none
      else do
        let low ← codeUnit cs
        return if isLowSurrogate low then some low else none
  | _ => .ok none

/-- The character behind an escaped code, and what is left after it. -/
def codePoint (cs : List Char) : Except Stop (Char × List Char) := do
  let unit ← codeUnit cs
  let rest := cs.drop 4
  if isHighSurrogate unit then
    match ← lowHalf? rest with
    | some low => return (Char.ofNat (joinSurrogates unit low), rest.drop 6)
    | none => return (Char.ofNat unit, rest)
  else return (Char.ofNat unit, rest)

/-- Reads on to the closing quote, with what is left where the text started. -/
def readText (start : Nat) :
    Nat → List Char → List Char → Except Stop (String × List Char)
  | 0, _, _ => .error (.fault ⟨.unclosedText, start⟩)
  | steps + 1, cs, done =>
      match cs with
      | [] => .error (.fault ⟨.unclosedText, start⟩)
      | '"' :: rest => .ok (String.ofList done.reverse, rest)
      | ['\\'] => .error (.fault ⟨.unclosedText, start⟩)
      | '\\' :: 'u' :: rest => do
          let (c, rest) ← codePoint rest
          readText start steps rest (c :: done)
      | '\\' :: c :: rest =>
          match plainEscape? c with
          | some e => readText start steps rest (e :: done)
          | none => .error (.fault ⟨.escape, rest.length + 2⟩)
      | c :: rest =>
          if c.toNat < 0x20 then .error (.fault ⟨.controlCharacter, rest.length + 1⟩)
          else readText start steps rest (c :: done)

def text (cs : List Char) : Except Stop (String × List Char) :=
  readText (cs.length + 1) (cs.length + 1) cs []

end AppSpec.Json
