import BundleAdjustment.Text.Quoted

/-!
Keys: the names of the unknowns.

An unknown is named by an integer of any size or by a text; the two never coincide. A key has
two written forms: `text` is the key itself, `quoted` tells integers and texts apart and is the
form that messages use.
-/
namespace BundleAdjustment

/-- The name of an unknown. -/
inductive Key where
  | number (n : Int)
  | name (s : String)
  deriving DecidableEq

namespace Key

def text : Key → String
  | number n => toString n
  | name s => s

/-- The key as messages show it: texts stand between quotes. -/
def quoted : Key → String
  | number n => toString n
  | name s => Text.quoted s

end Key
end BundleAdjustment
