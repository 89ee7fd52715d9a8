import ByteEmbed.Declaration.Parse
import ByteEmbed.Declaration.Render

/-!
# Reformatting

A text that reads as a declaration is rewritten with the layout that
declarations are given here.  Texts that differ in layout alone come out equal.
-/

namespace ByteEmbed
namespace Declaration

/-- The text of the declaration that a text reads as. -/
def reformat (source : Text) : Except ParseError Text :=
  (parse source).map render

end Declaration
end ByteEmbed
