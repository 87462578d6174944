import Michelson.Note

/-!
# Types

The types of the language. A node of a type carries a type note of its own; the
field notes of the components of an option, a pair or a union are kept on the
node that has the components.

Types with the same parts share a constructor, and a small enumeration says
which of them is meant: `Atom` for the types without parts, `Wrapper` for those
with one component, `Joint` for those with two named ones and `Table` for those
with a key.
-/

namespace Michelson

/-- The base types whose values can be compared, and so serve as the elements
of a set or the keys of a map. -/
inductive Base where
  | int
  | nat
  | string
  | bytes
  | mutez
  | bool
  | keyHash
  | timestamp
  | address
deriving DecidableEq, Repr

namespace Base

/-- Every base type. -/
def all : List Base :=
  [int, nat, string, bytes, mutez, bool, keyHash, timestamp, address]

/-- The word that names the type in source text. -/
def keyword : Base → String
  | int => "int"
  | nat => "nat"
  | string => "string"
  | bytes => "bytes"
  | mutez => "mutez"
  | bool => "bool"
  | keyHash => "key_hash"
  | timestamp => "timestamp"
  | address => "address"

/-- The name of the type in encoded trees. -/
def tag : Base → String
  | int => "Int"
  | nat => "Nat"
  | string => "String"
  | bytes => "Bytes"
  | mutez => "Mutez"
  | bool => "Bool"
  | keyHash => "KeyHash"
  | timestamp => "Timestamp"
  | address => "Address"

/-- The base type that a word names. -/
def ofKeyword? (word : String) : Option Base :=
  all.find? (·.keyword == word)

end Base

/-- A comparable type with its note. -/
structure Comparable where
  base : Base
  note : Note .type
deriving DecidableEq, Repr

/-- The types without components. -/
inductive Atom where
  | base (b : Base)
  | key
  | unit
  | signature
  | operation
deriving DecidableEq, Repr

/-- The types with one component that takes no field note. -/
inductive Wrapper where
  | list
  | contract
deriving DecidableEq, Repr

/-- The types with two components, each with a field note. -/
inductive Joint where
  | pair
  | or
deriving DecidableEq, Repr

/-- The types with comparable keys and values of any type. -/
inductive Table where
  | map
  | bigMap
deriving DecidableEq, Repr

/-- A type. -/
inductive Ty where
  | atom (note : Note .type) (atom : Atom)
  | option (note : Note .type) (field : Note .field) (element : Ty)
  | wrapped (note : Note .type) (wrapper : Wrapper) (element : Ty)
  | set (note : Note .type) (element : Comparable)
  | joint (note : Note .type) (joint : Joint) (leftField rightField : Note .field)
      (left right : Ty)
  | lambda (note : Note .type) (domain codomain : Ty)
  | table (note : Note .type) (table : Table) (key : Comparable) (value : Ty)
deriving DecidableEq, Repr

namespace Ty

/-- What the keyword of a type says: which constructor is meant. -/
inductive Head where
  | atom (atom : Atom)
  | option
  | wrapped (wrapper : Wrapper)
  | set
  | joint (joint : Joint)
  | lambda
  | table (table : Table)
deriving DecidableEq, Repr

namespace Head

/-- Every head. -/
def all : List Head :=
  [atom .key, atom .unit, atom .signature, option, wrapped .list, set, atom .operation,
    wrapped .contract, joint .pair, joint .or, lambda, table .map, table .bigMap] ++
  Base.all.map fun b => atom (.base b)

/-- The word that opens a type. -/
def keyword : Head → String
  | atom (.base b) => b.keyword
  | atom .key => "key"
  | atom .unit => "unit"
  | atom .signature => "signature"
  | atom .operation => "operation"
  | option => "option"
  | wrapped .list => "list"
  | wrapped .contract => "contract"
  | set => "set"
  | joint .pair => "pair"
  | joint .or => "or"
  | lambda => "lambda"
  | table .map => "map"
  | table .bigMap => "big_map"

/-- The head that a word names. -/
def ofKeyword? (word : String) : Option Head :=
  all.find? (·.keyword == word)

end Head

end Ty

end Michelson
