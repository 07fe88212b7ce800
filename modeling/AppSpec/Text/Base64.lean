/-!
Bytes written with sixty-four characters. Other characters are skipped, and the end of a group may
be filled up.
-/

namespace AppSpec.Text.Base64

inductive Fault where
  /-- One character is left over after so many characters of whole groups. -/
  | leftOver (count : Nat)
  | padding
  deriving DecidableEq, Repr

def Fault.text : Fault → String
  | .leftOver count =>
      "Invalid base64-encoded string: number of data characters (" ++ toString (count + 1) ++
        ") cannot be 1 more than a multiple of 4"
  | .padding => "Incorrect padding"

def filler : Char := '='

def sextet? (c : Char) : Option Nat :=
  let n := c.toNat
  if 'A' ≤ c && c ≤ 'Z' then some (n - 65)
  else if 'a' ≤ c && c ≤ 'z' then some (n - 71)
  else if '0' ≤ c && c ≤ '9' then some (n + 4)
  else if c == '+' then some 62
  else if c == '/' then some 63
  else none

def groupBytes : List Nat → List UInt8
  | a :: b :: rest => UInt8.ofNat (a * 4 + b / 16) :: tailBytes b rest
  | _ => []
where
  tailBytes (b : Nat) : List Nat → List UInt8
    | [] => []
    | [c] => [UInt8.ofNat (b % 16 * 16 + c / 4)]
    | c :: d :: _ => [UInt8.ofNat (b % 16 * 16 + c / 4), UInt8.ofNat (c % 4 * 64 + d)]

/-- Reads on with the group begun and the fillers that directly precede. -/
def decodeFrom : List Char → List Nat → Nat → List UInt8 → Except Fault (List UInt8)
  | [], group, _, done =>
      match group with
      | [] => .ok done
      | [_] => .error (.leftOver (done.length / 3 * 4))
      | _ => .error .padding
  | c :: cs, group, fillers, done =>
      if c == filler then
        if group.length < 2 then decodeFrom cs group fillers done
        else if 4 ≤ group.length + fillers + 1 then .ok (done ++ groupBytes group)
        else decodeFrom cs group (fillers + 1) done
      else
        match sextet? c with
        | none => decodeFrom cs group fillers done
        | some n =>
            if group.length == 3 then decodeFrom cs [] 0 (done ++ groupBytes (group ++ [n]))
            else decodeFrom cs (group ++ [n]) 0 done

def decode (cs : List Char) : Except Fault (List UInt8) := decodeFrom cs [] 0 []

end AppSpec.Text.Base64
