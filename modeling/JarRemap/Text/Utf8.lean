/-!
# Places in a text

Messages give a place in a text as an offset in UTF-8 bytes.
-/

namespace JarRemap.Text

/-- How many bytes the UTF-8 form of some characters takes. -/
def utf8Size (s : List Char) : Nat :=
  s.foldl (fun n c => n + c.utf8Size) 0

/-- The offset at which `rest`, an end of `text`, begins. -/
def offsetOf (text rest : List Char) : Nat :=
  utf8Size text - utf8Size rest

end JarRemap.Text
