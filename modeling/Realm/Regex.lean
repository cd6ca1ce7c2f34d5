import Realm.Pattern.Reader
import Realm.Pattern.Search

/-! Regular expressions, as far as the program knows them. What a text means is up to the
library: it compiles the text or refuses it, and looks for what it has compiled. -/
namespace Realm

/-- A library of regular expressions. -/
class Regex (R : Type) where
  /-- The expression that a text is, if it is one. -/
  compile : Text → Option R
  /-- Search a text; of the leftmost match, what the groups with a name have matched. -/
  captures? : R → Text → Option (Table Text Text)

/-- Patterns are the regular expressions with which the program runs. -/
@[default_instance] instance : Regex Pattern where
  compile := Pattern.read?
  captures? := Pattern.captures?

end Realm
