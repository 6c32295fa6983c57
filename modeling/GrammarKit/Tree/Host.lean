/-
Values that a program hands to a parse and gets back unread. Two of them are the same value only if
they are one object, so each carries the identity of its object. The same goes for types: two are the
same only if their identities are, and the name of a type is for people to read.
-/
namespace GrammarKit

/-- What is known of a type: its identity and its name, with the path in front of it. -/
structure TypeTag where
  id : String
  name : String
  deriving DecidableEq

/-- A type that no other type shares its name with. -/
instance : Coe String TypeTag := ⟨fun name => ⟨name, name⟩⟩

structure HostValue where
  identity : Nat
  tag : TypeTag
  /-- The value as text, for values that have one. -/
  content : Option String

/-- A type that values are checked against. -/
structure HostType where
  tag : TypeTag
  deriving DecidableEq

/-- The name without the path in front of it. Type arguments keep theirs. -/
def shortTypeName (name : String) : String :=
  let head := name.toList.takeWhile (· != '<')
  match path head with
  | none => name
  | some n => String.ofList (name.toList.drop n)
where
  /-- The number of characters up to and with the last `::`. -/
  path : List Char → Option Nat
    | [] => none
    | c :: cs => match path cs, c, cs with
      | some n, _, _ => some (n + 1)
      | none, ':', ':' :: _ => some 2
      | none, _, _ => none

namespace HostValue

def same (a b : HostValue) : Bool := a.identity == b.identity

def typeName (v : HostValue) : String := v.tag.name

def shortName (v : HostValue) : String := shortTypeName v.typeName

def report (v : HostValue) : String := s!"HostValue(<{v.shortName}>)"

end HostValue

namespace HostType

def name (t : HostType) : String := t.tag.name

def accepts (t : HostType) (v : HostValue) : Bool := t.tag.id == v.tag.id

def shortName (t : HostType) : String := shortTypeName t.name

def report (t : HostType) : String := s!"HostType({t.name})"

end HostType

end GrammarKit
