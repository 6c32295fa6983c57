/-
Terminals and how they recognise their tokens: by a literal text, by a pattern, as a value of the host
program or as a tree. The latter two never match text.
-/
import GrammarKit.Text.Report

namespace GrammarKit

inductive Pattern where
  | literal (text flags : String)
  | regex (source flags : String)
  /-- A host value, of the type registered under `key` if there is one. -/
  | placeholder (key : Option String)
  /-- A tree with the label. -/
  | tree (label : String)
  deriving DecidableEq

/-- The terminal of host values of any type. -/
def placeholderName : String := "PLACEHOLDER"

namespace Pattern

def isText : Pattern → Bool
  | literal .. | regex .. => true
  | _ => false

def flags : Pattern → String
  | literal _ f | regex _ f => f
  | _ => ""

/-- Length in bytes of what is written in the grammar. -/
def writtenLength : Pattern → Nat
  | literal t _ | regex t _ => t.utf8ByteSize
  | _ => 0

/-- Writes a text as a pattern that matches that text only. -/
def escapeText (text : String) : String :=
  String.ofList (text.toList.flatMap fun c =>
    if "\\.+*?()|[]\x7b\x7d^$#&-~".contains c then ['\\', c] else [c])

def withFlags (flags source : String) : String :=
  if flags.isEmpty then source else s!"(?{flags}:{source})"

/-- The pattern source of a text pattern, with its own flags. -/
def source? : Pattern → Option String
  | literal t f => some (withFlags f (escapeText t))
  | regex s f => some (withFlags f s)
  | _ => none

def display : Pattern → String
  | literal t f => Text.quoted t ++ f
  | regex s f => s!"/{s}/{f}"
  | placeholder none => placeholderName
  | placeholder (some key) => s!"{placeholderName}[{key}]"
  | tree label => s!"Tree('{label}')"

def report : Pattern → String
  | literal t f => Report.record "Str" [("value", Text.quoted t), ("flags", Text.quoted f)]
  | regex s f => Report.record "Regex" [("value", Text.quoted s), ("flags", Text.quoted f)]
  | placeholder key => Report.record "Placeholder" [("type_key", Report.option (key.map Text.quoted))]
  | tree label => Report.record "Tree" [("label", Text.quoted label)]

end Pattern

structure Terminal where
  name : String
  pattern : Pattern
  priority : Int := 0
  deriving DecidableEq

def Terminal.report (t : Terminal) : String :=
  Report.record "TerminalDef"
    [("name", Text.quoted t.name), ("pattern", t.pattern.report), ("priority", toString t.priority)]

/-! ## Names of generated terminals -/

/-- Upper case letters, digits and underscores; every other character becomes an underscore. -/
def terminalWord (label : String) : String :=
  String.ofList (label.toList.map fun c => if c.isAlphanum || c == '_' then c.toUpper else '_')

/-- The terminal of spliced trees with a label. -/
def spliceTerminalName (label : String) : String := "TREE__" ++ terminalWord label

def placeholderTerminalName : Option String → String
  | none => placeholderName
  | some key => placeholderName ++ "__" ++ terminalWord key

end GrammarKit
