import LuaTypes.Error

/-!
Keys of members, `<class>*<member>`. Both parts are there and neither holds the separator, so that
a key can be taken apart again in one way only.
-/

namespace LuaTypes

/-- The first fault of two texts as parts of a key. -/
def KeyFault.ofParts? (className memberName : String) : Option KeyFault :=
  if className = "" then some .emptyClass
  else if memberName = "" then some .emptyMember
  else if '*' ∈ className.toList then some .separatorInClass
  else if '*' ∈ memberName.toList then some .separatorInMember
  else none

/-- A key of a member, with both parts known to be fit for one. -/
structure MemberKey where
  className : String
  memberName : String
  faultless : KeyFault.ofParts? className memberName = none

namespace MemberKey

/-- The text of two parts, fit for a key or not. -/
def joined (className memberName : String) : String :=
  className ++ "*" ++ memberName

/-- The text of a key. -/
def toString (k : MemberKey) : String :=
  joined k.className k.memberName

/-- The key of two parts, or the first fault in them. -/
def ofParts (className memberName : String) : Except Error MemberKey :=
  match h : KeyFault.ofParts? className memberName with
  | some fault => .error (.malformedKey (joined className memberName) fault)
  | none => .ok ⟨className, memberName, h⟩

/-- Takes a text apart at its first separator. -/
def parse (key : String) : Except Error MemberKey :=
  match key.toList.dropWhile (· ≠ '*') with
  | [] => .error (.malformedKey key .noSeparator)
  | _ :: memberName =>
      ofParts (String.ofList (key.toList.takeWhile (· ≠ '*'))) (String.ofList memberName)

end MemberKey

end LuaTypes
