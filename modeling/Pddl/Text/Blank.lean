/-!
# Blank characters

The blank characters are those of the Unicode `White_Space` property: the ASCII tab, line
feed, vertical tab, form feed, carriage return and space, the next-line and no-break spaces,
the ogham space mark, the spaces from en quad to hair space, the line and paragraph
separators, the narrow no-break space, the medium mathematical space and the ideographic
space. Option values are read with the blanks around them removed.
-/

namespace Pddl

/-- Whether the character has the Unicode `White_Space` property. -/
def isBlank (c : Char) : Bool :=
  let n := c.toNat
  (0x09 ≤ n && n ≤ 0x0D) || n == 0x20 || n == 0x85 || n == 0xA0 || n == 0x1680 ||
  (0x2000 ≤ n && n ≤ 0x200A) || n == 0x2028 || n == 0x2029 || n == 0x202F || n == 0x205F ||
  n == 0x3000

/-- The characters without the blanks at both ends. -/
def trimBlank (cs : List Char) : List Char :=
  ((cs.dropWhile isBlank).reverse.dropWhile isBlank).reverse

/-- The text without the blanks at both ends. -/
def trimBlankText (s : String) : String := String.ofList (trimBlank s.toList)

end Pddl
