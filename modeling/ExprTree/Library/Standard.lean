import ExprTree.Library.Basic

/-!
# The standard library

Stocking a library registers the standard operators one after the other and stops at the first that
meets its own symbol. What was registered before that stays: the library is returned in either case,
beside the complaint if there is one.
-/

set_option autoImplicit false

namespace ExprTree.Library

/-- The library after registering templates in order, up to the first that is refused. -/
def registerEach (lib : Library) : List Tree → Library × Option Fault
  | [] => (lib, none)
  | t :: ts =>
    match lib.register t with
    | .ok lib' => lib'.registerEach ts
    | .error e => (lib, some e)

def standardTemplates : List Tree := Op.standard.map Op.empty

def stock (lib : Library) : Library × Option Fault := lib.registerEach standardTemplates

def standard : Library := empty.stock.1

/-- The standard operators do not meet each other. -/
theorem stock_empty : empty.stock.2 = none := by decide +kernel

theorem identifiers_standard : standard.identifiers = Op.standard.map Op.symbol := by
  decide +kernel

end ExprTree.Library
