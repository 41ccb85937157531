import EscapeAnalysis.Text.GraphemeExtend
import EscapeAnalysis.Text.Unassigned

/-!
# Quoted text

Text between double quotes, with everything that does not print as itself written as an escape.
-/

namespace EscapeAnalysis.Quoted

/-- Characters that show no mark: controls, format characters, codes for private use, blanks other
than the space, and the fillers among the letters. -/
def unseen : Ranges :=
  [(0x0, 0x1f), (0x7f, 0xa0), (0xad, 0xad), (0x600, 0x605), (0x61c, 0x61c), (0x6dd, 0x6dd),
   (0x70f, 0x70f), (0x890, 0x891), (0x8e2, 0x8e2), (0x115f, 0x1160), (0x1680, 0x1680),
   (0x180e, 0x180e), (0x2000, 0x200f), (0x2028, 0x202f), (0x205f, 0x2064), (0x2066, 0x206f),
   (0x3000, 0x3000), (0x3164, 0x3164), (0xe000, 0xf8ff), (0xfeff, 0xfeff), (0xffa0, 0xffa0),
   (0xfff9, 0xfffb), (0x110bd, 0x110bd), (0x110cd, 0x110cd), (0x13430, 0x1343f), (0x1bca0, 0x1bca3),
   (0x1d173, 0x1d17a), (0xe0001, 0xe0001), (0xe0020, 0xe007f), (0xf0000, 0xffffd),
   (0x100000, 0x10fffd)]

/-- The two halfwidth sound marks. They extend the character before them, but in a cell of their
own. -/
def ownCell : Ranges := [(0xff9e, 0xff9f)]

/-- Whether a character does not print as itself. -/
def isHidden (c : Char) : Bool :=
  let n := c.toNat
  unseen.has n || Ranges.unassigned.has n || Ranges.graphemeExtend.has n && !ownCell.has n

def hex (n : Nat) : String := String.ofList (Nat.toDigits 16 n)

def escape (c : Char) : String :=
  if c = '"' then "\\\""
  else if c = '\\' then "\\\\"
  else if c = '\n' then "\\n"
  else if c = '\r' then "\\r"
  else if c = '\t' then "\\t"
  else if c.toNat = 0 then "\\0"
  else if isHidden c then "\\u\x7b" ++ hex c.toNat ++ "\x7d"
  else c.toString

def quote (s : String) : String := "\"" ++ String.join (s.toList.map escape) ++ "\""

end EscapeAnalysis.Quoted
