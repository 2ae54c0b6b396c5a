/-!
# The version of the library
-/

namespace ElementContent

/-- The version of this library. -/
def version : String := "0.1.0"

end ElementContent
