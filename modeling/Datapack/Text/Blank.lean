/-!
Characters that separate tokens without being part of any. The class is the White_Space property of the
Unicode character database, so that a script pasted from any editor reads the same.
-/

namespace Datapack.Text

/-- Whether a character has the White_Space property: the five controls from tabulation to carriage
return, the space, next line, the no-break space and the spaces and separators of the later blocks. -/
def isBlank (c : Char) : Bool :=
  let code := c.toNat
  (0x09 ≤ code && code ≤ 0x0D) || code == 0x20 || code == 0x85 || code == 0xA0 || code == 0x1680 ||
    (0x2000 ≤ code && code ≤ 0x200A) || code == 0x2028 || code == 0x2029 || code == 0x202F ||
    code == 0x205F || code == 0x3000

end Datapack.Text
