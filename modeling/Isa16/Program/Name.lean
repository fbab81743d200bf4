/-!
# Names of the program language

* `isIdentifier`: what a local or a library entry may be called.
* `isKeyword`: the words with a meaning of their own.
* `contextRoot`, `operandsRoot`: the two names under which a program sees its surroundings.
-/

namespace Isa16

/-- An ASCII letter or an underscore, then letters, digits and underscores. -/
def isIdentifier (name : String) : Bool :=
  match name.toList with
  | [] => false
  | c :: cs => (c.isAlpha || c = '_') && cs.all fun d => d.isAlphanum || d = '_'

/-- The words that are no name of a value. -/
def keywords : List String :=
  ["if", "else", "new", "true", "false"]

/-- The word has a meaning of its own. -/
def isKeyword (name : String) : Bool :=
  keywords.contains name

/-- The name of the machine state in a program. -/
def contextRoot : String := "ctx"

/-- The name of the operand values in a program. -/
def operandsRoot : String := "ops"

end Isa16
