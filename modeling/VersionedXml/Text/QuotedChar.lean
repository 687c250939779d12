import VersionedXml.Text.DefaultIgnorable
import VersionedXml.Text.ExtendingMark
import VersionedXml.Text.Unprintable

/-!
# Quoted characters

The form in which a message shows a single character.
-/

namespace VersionedXml.Text

/-- A character that cannot be seen alone between quotes: it is drawn onto its predecessor, it is not
drawn at all, or it has no glyph. -/
def isHidden (c : Char) : Bool :=
  isExtendingMark c || isDefaultIgnorable c || isUnprintable c

def escapeChar (c : Char) : String :=
  match c with
  | '\x00' => "\\0"
  | '\t' => "\\t"
  | '\r' => "\\r"
  | '\n' => "\\n"
  | '\'' => "\\'"
  | '\\' => "\\\\"
  | _ =>
      if isHidden c then
        "\\u\x7b" ++ String.ofList (Nat.toDigits 16 c.toNat) ++ "\x7d"
      else
        c.toString

def quoteChar (c : Char) : String :=
  "'" ++ escapeChar c ++ "'"

end VersionedXml.Text
