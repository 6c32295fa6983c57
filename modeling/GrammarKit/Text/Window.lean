/-
A window of a text: the characters it shows, between those before and those after it. Lines and columns
inside the window count from the start of the whole text.
-/
import GrammarKit.Failure
import GrammarKit.Text.Position

namespace GrammarKit

structure Window where
  before : List Char
  inside : List Char
  after : List Char

namespace Window

def whole (text : List Char) : Window := ⟨[], text, []⟩

/-- The window of the bytes from `start` to `stop`; both must fall between characters. -/
def cut (text : List Char) (start stop : Nat) : Outcome Window :=
  match Text.cut3? text start stop with
  | some (before, inside, after) => .ok ⟨before, inside, after⟩
  | none => .error (.usage (.invalidWindow start stop (Text.bytes text)))

def text (w : Window) : List Char := w.before ++ w.inside ++ w.after

def start (w : Window) : Nat := Text.bytes w.before

def stop (w : Window) : Nat := Text.bytes w.before + Text.bytes w.inside

def isComplete (w : Window) : Bool := w.before.isEmpty && w.after.isEmpty

end Window

end GrammarKit
