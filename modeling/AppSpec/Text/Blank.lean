/-!
Blank characters, and text without the blanks at its ends.
-/

namespace AppSpec.Text

def isBlank (c : Char) : Bool :=
  let n := c.toNat
  (decide (0x09 ≤ n) && decide (n ≤ 0x0D)) || (decide (0x1C ≤ n) && decide (n ≤ 0x20)) ||
    n == 0x85 || n == 0xA0 || n == 0x1680 || (decide (0x2000 ≤ n) && decide (n ≤ 0x200A)) ||
    n == 0x2028 || n == 0x2029 || n == 0x202F || n == 0x205F || n == 0x3000

def skipBlanks (cs : List Char) : List Char := cs.dropWhile isBlank

theorem skipBlanks_length_le (cs : List Char) : (skipBlanks cs).length ≤ cs.length :=
  (List.dropWhile_sublist isBlank).length_le

theorem skipBlanks_head {cs rest : List Char} {c : Char} (h : skipBlanks cs = c :: rest) :
    isBlank c = false := by
  induction cs with
  | nil => simp [skipBlanks] at h
  | cons d ds ih =>
      cases hd : isBlank d with
      | true => exact ih (by simpa [skipBlanks, hd] using h)
      | false =>
          have hcd : d = c := by
            have := h
            simp [skipBlanks, hd] at this
            exact this.1
          exact hcd ▸ hd

def trimEnd (cs : List Char) : List Char := (skipBlanks cs.reverse).reverse

def trim (cs : List Char) : List Char := trimEnd (skipBlanks cs)

/-- A blank that is none of the four separators of records. -/
def isMargin (c : Char) : Bool := isBlank c && !(0x1C ≤ c.toNat && c.toNat ≤ 0x1F)

def withoutMargins (cs : List Char) : List Char :=
  ((cs.dropWhile isMargin).reverse.dropWhile isMargin).reverse

def trimmed (s : String) : String := String.ofList (trim s.toList)

def isAllBlank (s : String) : Bool := s.toList.all isBlank

end AppSpec.Text
