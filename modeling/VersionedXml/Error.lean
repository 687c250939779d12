import VersionedXml.Text.QuotedChar

/-!
# Errors

Every failure has a cause, a numeric code and a message.  Codes from 100 belong to scanning, from
200 to the store, and from 300 to path expressions.
-/

namespace VersionedXml

/-- Failures of scanning.  Both concern the tag whose `<` stands at `position`. -/
inductive ScanError where
  | tooManyAttributes (position limit : Nat)
  | outOfMemory (position : Nat)
  deriving DecidableEq, Repr

namespace ScanError

def code : ScanError → Nat
  | tooManyAttributes _ _ => 100
  | outOfMemory _ => 101

def message : ScanError → String
  | tooManyAttributes position limit =>
      s!"tag at offset {position} has more than {limit} attributes"
  | outOfMemory position => s!"attribute list allocation failed at offset {position}"

end ScanError

inductive StoreError where
  | noSuchNode (id : UInt32)
  | notAChild (id : UInt32)
  | notAParent (id : UInt32)
  | notAnElement (id : UInt32)
  | notAnAttribute (id : UInt32)
  | childNotFound (parent child : UInt32)
  | alreadyAttached (id : UInt32)
  | wouldCycle (parent child : UInt32)
  /-- The batch has not created so many nodes yet. -/
  | neverCreated (index : Nat)
  | storeFull (limit : Nat)
  deriving DecidableEq, Repr

namespace StoreError

def code : StoreError → Nat
  | noSuchNode _ => 200
  | notAChild _ => 201
  | notAParent _ => 202
  | notAnElement _ => 203
  | notAnAttribute _ => 204
  | childNotFound _ _ => 205
  | alreadyAttached _ => 206
  | wouldCycle _ _ => 207
  | neverCreated _ => 208
  | storeFull _ => 209

def message : StoreError → String
  | noSuchNode id => s!"invalid node index {id}"
  | notAChild id => s!"node {id} cannot be used as a child"
  | notAParent id => s!"node {id} cannot have children"
  | notAnElement id => s!"node {id} is not an element"
  | notAnAttribute id => s!"node {id} in an attribute list is not an attribute"
  | childNotFound parent child => s!"node {child} is not a child of node {parent}"
  | alreadyAttached id => s!"node {id} already has a parent"
  | wouldCycle parent child =>
      s!"appending node {child} under node {parent} would create a cycle"
  | neverCreated index => s!"batch-local node reference #{index} was never created"
  | storeFull limit => s!"store is limited to {limit} nodes"

end StoreError

inductive Wanted where
  | slash
  | name
  | atSign
  | equals
  | literal
  | closeBracket
  deriving DecidableEq, Repr

namespace Wanted

def code : Wanted → Nat
  | slash => 300
  | name => 301
  | atSign => 302
  | equals => 303
  | literal => 304
  | closeBracket => 305

def text : Wanted → String
  | slash => "'/'"
  | name => "an identifier"
  | atSign => "'@'"
  | equals => "'='"
  | literal => "a quoted string"
  | closeBracket => "']'"

end Wanted

/-- What is wrong with a path expression. -/
inductive PathFault where
  | expected (wanted : Wanted)
  /-- The literal that begins here has no closing quote. -/
  | unterminatedLiteral
  | invalidCharacter (c : Char)
  /-- The path is complete, and yet the expression goes on. -/
  | trailingInput
  deriving DecidableEq, Repr

structure PathError where
  fault : PathFault
  position : Nat
  deriving DecidableEq, Repr

namespace PathError

def code (error : PathError) : Nat :=
  match error.fault with
  | .expected wanted => wanted.code
  | .unterminatedLiteral => 306
  | .invalidCharacter _ => 307
  | .trailingInput => 308

def message (error : PathError) : String :=
  let offset := toString error.position
  match error.fault with
  | .expected wanted => "expected " ++ wanted.text ++ " at offset " ++ offset
  | .unterminatedLiteral => "string starting at offset " ++ offset ++ " is not terminated"
  | .invalidCharacter c => "invalid character " ++ Text.quoteChar c ++ " at offset " ++ offset
  | .trailingInput => "unexpected input after the path at offset " ++ offset

end PathError

inductive Error where
  | scan (error : ScanError)
  | store (error : StoreError)
  | path (error : PathError)
  deriving DecidableEq, Repr

namespace Error

def code : Error → Nat
  | scan error => error.code
  | store error => error.code
  | path error => error.code

def message : Error → String
  | scan error => error.message
  | store error => error.message
  | path error => error.message

def position? : Error → Option Nat
  | path error => some error.position
  | _ => none

end Error

end VersionedXml
