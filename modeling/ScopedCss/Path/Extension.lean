import ScopedCss.Text.Word

/-!
# File extensions

A declared path has an extension when it ends in a dot and at least one word character; to one that
has none the usual extension is added.
-/

namespace ScopedCss
namespace Path

/-- The text ends in a dot and one or more word characters. -/
def hasExtension (declared : String) : Bool :=
  let backwards := declared.toList.reverse
  !(backwards.takeWhile Text.isWordChar).isEmpty
    && (backwards.dropWhile Text.isWordChar).head? == some '.'

/-- The declared path, with the extension added if it has none. -/
def withDefaultExtension (declared extension : String) : String :=
  if hasExtension declared then declared else declared ++ extension

end Path
end ScopedCss
