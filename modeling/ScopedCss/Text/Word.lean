/-!
# Word characters

File extensions and the words of a dashed name are runs of ASCII letters, digits and underscores.
-/

namespace ScopedCss
namespace Text

/-- An ASCII letter, an ASCII digit or an underscore. -/
def isWordChar (c : Char) : Bool := c.isAlphanum || c == '_'

end Text
end ScopedCss
