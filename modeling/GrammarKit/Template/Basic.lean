/-
Templates: literal text with values between. A value is a tree of an earlier parse or a value of the host
program. A template begins and ends with a segment of text, which may be empty, so there is always one
segment more than there are values.

A template may know where it was written: the source text, and for its parts their places in it.
-/
import GrammarKit.Failure
import GrammarKit.Text.Position

namespace GrammarKit

inductive Interpolation where
  /-- A tree, to be spliced wherever its label is grammatical. -/
  | tree (t : Tree)
  /-- A value that fills a placeholder. -/
  | host (v : HostValue)

/-- Bytes from `start` to `stop`. -/
structure ByteRange where
  start : Nat
  stop : Nat
  deriving DecidableEq

/-- Where the parts of a template were written; a part without place gets no position. -/
structure TemplateSource where
  text : String
  filename : Option String := none
  segments : List (Option ByteRange) := []
  interpolations : List (Option ByteRange) := []

namespace TemplateSource

def segment? (s : TemplateSource) (i : Nat) : Option ByteRange := (s.segments[i]?).join

def interpolation? (s : TemplateSource) (i : Nat) : Option ByteRange := (s.interpolations[i]?).join

def fits (s : TemplateSource) (r : ByteRange) : Bool := (Text.cut3? s.text.toList r.start r.stop).isSome

/-- The first place that is no stretch of the source text. -/
def fault? (s : TemplateSource) : Option UsageFault :=
  ((s.segments ++ s.interpolations).filterMap id).find? (!s.fits ·) |>.map fun r =>
    .invalidSourceSpan r.start r.stop s.text.utf8ByteSize

end TemplateSource

structure Template where
  /-- The first segment. -/
  head : String
  /-- The values, each with the segment after it. -/
  tail : List (Interpolation × String) := []
  source : Option TemplateSource := none

namespace Template

def segments (t : Template) : List String := t.head :: t.tail.map (·.2)

def interpolations (t : Template) : List Interpolation := t.tail.map (·.1)

/-- A template from its segments and values. -/
def ofLists (segments : List String) (values : List Interpolation) : Outcome Template :=
  match segments with
  | head :: rest =>
    if rest.length = values.length then .ok { head, tail := values.zip rest }
    else .error (.usage (.segmentCount values.length segments.length))
  | [] => .error (.usage (.segmentCount values.length 0))

def literal (text : String) : Template := { head := text }

/-- Attaches places; they must be stretches of the source text. -/
def withSource (t : Template) (s : TemplateSource) : Outcome Template :=
  match s.fault? with
  | some fault => .error (.usage fault)
  | none => .ok { t with source := some s }

/-- What follows a first segment up to the end of a template, and then another template. -/
def joinAfter (b : Template) : String → List (Interpolation × String) → Template
  | head, [] => { head := head ++ b.head, tail := b.tail }
  | head, (v, text) :: rest =>
    let joined := joinAfter b text rest
    { head, tail := (v, joined.head) :: joined.tail }

/-- One template after another; the segments where they meet become one. Places are not carried over. -/
def join (a b : Template) : Template := joinAfter b a.head a.tail

/-- A part of a template that is written part by part. -/
inductive Part where
  | text (s : String)
  | value (v : Interpolation)

/-- A template from parts in any order; texts in a row become one segment. -/
def ofParts : List Part → Template
  | [] => literal ""
  | .text s :: rest =>
    let t := ofParts rest
    { t with head := s ++ t.head }
  | .value v :: rest =>
    let t := ofParts rest
    { head := "", tail := (v, t.head) :: t.tail }

end Template

end GrammarKit
