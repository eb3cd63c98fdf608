import TypeLattice.Text.ExtendingMark
import TypeLattice.Text.Unprintable

namespace TypeLattice.Text

/-- First and last code point of each run with the property Default_Ignorable_Code_Point
(Unicode 17). -/
def ignorableRanges : List (Nat × Nat) := [
  (0xad, 0xad), (0x34f, 0x34f), (0x61c, 0x61c), (0x115f, 0x1160), (0x17b4, 0x17b5),
  (0x180b, 0x180f), (0x200b, 0x200f), (0x202a, 0x202e), (0x2060, 0x206f), (0x3164, 0x3164),
  (0xfe00, 0xfe0f), (0xfeff, 0xfeff), (0xffa0, 0xffa0), (0xfff0, 0xfff8), (0x1bca0, 0x1bca3),
  (0x1d173, 0x1d17a), (0xe0000, 0xe0fff)]

def inRanges (ranges : List (Nat × Nat)) (n : Nat) : Bool :=
  match ranges.find? (fun r => n ≤ r.2) with
  | some r => r.1 ≤ n
  | none => false

/-- Characters that are written by their code point: what has no glyph, what a display may leave
out, and marks that would attach to the character before them. -/
def isHidden (c : Char) : Bool :=
  inRanges unprintableRanges c.toNat || inRanges ignorableRanges c.toNat ||
    inRanges extendingMarkRanges c.toNat

def codePoint (c : Char) : String :=
  "\\u\x7b" ++ String.ofList (Nat.toDigits 16 c.toNat) ++ "\x7d"

def quoteChar (c : Char) : String :=
  if c = '\x00' then "\\0"
  else if c = '\t' then "\\t"
  else if c = '\r' then "\\r"
  else if c = '\n' then "\\n"
  else if c = '\\' then "\\\\"
  else if c = '\"' then "\\\""
  else if isHidden c then codePoint c
  else c.toString

def quote (s : String) : String := "\"" ++ String.join (s.toList.map quoteChar) ++ "\""

end TypeLattice.Text
