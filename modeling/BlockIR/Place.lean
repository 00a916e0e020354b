/-! Places: where in a document something stands.

A place is the list of member names and item positions leading to it from the
root. It serves twice: it is printed in front of a message (`text`), and, since
no two parts of a document share one, it is the identity of a block. -/
namespace BlockIR

/-- One step into a document. -/
inductive Segment where
  | field (name : String)
  | index (position : Nat)
  deriving DecidableEq, Repr

/-- A way from the root of a document to a part of it. -/
abbrev Place : Type := List Segment

/-- A step as it is printed. -/
def Segment.text : Segment → String
  | field name => name
  | index position => toString position

namespace Place

/-- The member of that name. -/
def field (place : Place) (name : String) : Place := place ++ [.field name]

/-- The item at that position. -/
def index (place : Place) (position : Nat) : Place := place ++ [.index position]

/-- The item at a position of the array that is a member. -/
def item (place : Place) (name : String) (position : Nat) : Place := (place.field name).index position

/-- The steps with dots between them; the root is `$`. -/
def text (place : Place) : String :=
  let joined := ".".intercalate (place.map Segment.text)
  if joined = "" then "$" else joined

end Place
end BlockIR
