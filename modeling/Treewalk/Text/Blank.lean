/-!
# White space

The characters with the Unicode property `White_Space`, and what depends on them: trimming a text
at both ends and cutting it into words.
-/

set_option autoImplicit false
set_option relaxedAutoImplicit false

namespace Treewalk.Text

/-- The characters with the property `White_Space`. -/
def isBlank (c : Char) : Bool :=
  let n := c.toNat
  (0x09 ≤ n && n ≤ 0x0d) || n = 0x20 || n = 0x85 || n = 0xa0 || n = 0x1680 ||
    (0x2000 ≤ n && n ≤ 0x200a) || n = 0x2028 || n = 0x2029 || n = 0x202f || n = 0x205f ||
    n = 0x3000

/-- A text without the white space at its ends. -/
def trim (text : List Char) : List Char :=
  ((text.dropWhile isBlank).reverse.dropWhile isBlank).reverse

/-- A text of white space only. -/
def allBlank (text : String) : Bool :=
  text.toList.all isBlank

/-- The words of a text: its longest stretches without white space. -/
def words : List Char → List (List Char)
  | [] => []
  | c :: cs =>
    if isBlank c then words cs
    else (c :: cs.takeWhile (!isBlank ·)) :: words (cs.dropWhile (!isBlank ·))
termination_by text => text.length
decreasing_by
  · simp
  · have h := (List.dropWhile_suffix (!isBlank ·) (l := cs)).length_le
    simp only [List.length_cons]
    omega

end Treewalk.Text
