/-!
# Outlines of values

An outline is the text of a value with its nesting kept: atoms, labelled
values and bracketed groups.  `compact` prints it on one line; `indented`
gives every member of a group a line of its own, four spaces deeper than its
group and closed by a comma.  An empty group stays on one line in both.
-/

namespace LinearProbing

inductive Outline
  | atom (text : String)
  | pair (label value : Outline)
  | record (name : String) (fields : List Outline)
  | wrapper (name : String) (members : List Outline)
  | list (members : List Outline)
  | braces (members : List Outline)

namespace Outline

def nat (n : Nat) : Outline :=
  .atom (toString n)

def int (n : Int) : Outline :=
  .atom (toString n)

def quoted (text : String) : Outline :=
  .atom ("\"" ++ text ++ "\"")

def field (name : String) (value : Outline) : Outline :=
  .pair (.atom name) value

def bytes (data : List UInt8) : Outline :=
  .list (data.map fun b => .nat b.toNat)

def option : Option Outline → Outline
  | none => .atom "None"
  | some value => .wrapper "Some" [value]

mutual

def compact : Outline → String
  | .atom text => text
  | .pair label value => compact label ++ ": " ++ compact value
  | .record name fields =>
      name ++ " \x7b " ++ ", ".intercalate (compactAll fields) ++ " \x7d"
  | .wrapper name members =>
      name ++ "(" ++ ", ".intercalate (compactAll members) ++ ")"
  | .list members => "[" ++ ", ".intercalate (compactAll members) ++ "]"
  | .braces members =>
      "\x7b" ++ ", ".intercalate (compactAll members) ++ "\x7d"

def compactAll : List Outline → List String
  | [] => []
  | member :: members => compact member :: compactAll members

end

def margin (depth : Nat) : String :=
  String.ofList (List.replicate (4 * depth) ' ')

/-- A bracketed group whose members are already printed. -/
def block (depth : Nat) (opening closing : String) :
    List String → String
  | [] => opening ++ closing
  | members =>
      opening ++ "\n" ++
        String.join (members.map fun member =>
          margin (depth + 1) ++ member ++ ",\n") ++
        margin depth ++ closing

mutual

def indentedAt (depth : Nat) : Outline → String
  | .atom text => text
  | .pair label value =>
      indentedAt depth label ++ ": " ++ indentedAt depth value
  | .record name fields =>
      block depth (name ++ " \x7b") "\x7d" (indentedAllAt (depth + 1) fields)
  | .wrapper name members =>
      block depth (name ++ "(") ")" (indentedAllAt (depth + 1) members)
  | .list members =>
      block depth "[" "]" (indentedAllAt (depth + 1) members)
  | .braces members =>
      block depth "\x7b" "\x7d" (indentedAllAt (depth + 1) members)

def indentedAllAt (depth : Nat) : List Outline → List String
  | [] => []
  | member :: members =>
      indentedAt depth member :: indentedAllAt depth members

end

def indented (outline : Outline) : String :=
  outline.indentedAt 0

end Outline

end LinearProbing
