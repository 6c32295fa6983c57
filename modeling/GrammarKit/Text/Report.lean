/-
Reports: the inside of a value as text, with the names of its fields, for people who debug a grammar.
-/
import GrammarKit.Text.Quoted

namespace GrammarKit.Report

def list (items : List String) : String := "[" ++ ", ".intercalate items ++ "]"

def set (items : List String) : String := "\x7b" ++ ", ".intercalate items ++ "\x7d"

def bool (b : Bool) : String := if b then "true" else "false"

def texts (items : List String) : String := list (items.map Text.quoted)

def option (item : Option String) : String :=
  match item with
  | some s => s!"Some({s})"
  | none => "None"

def fields (items : List (String × String)) : String :=
  ", ".intercalate (items.map fun (name, value) => s!"{name}: {value}")

/-- A value with named fields. -/
def record (name : String) (items : List (String × String)) : String :=
  name ++ " \x7b " ++ fields items ++ " \x7d"

/-- A value of which only some fields are shown. -/
def openRecord (name : String) (items : List (String × String)) : String :=
  name ++ " \x7b " ++ fields items ++ ", .. \x7d"

end GrammarKit.Report
