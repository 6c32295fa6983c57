/-
Whole parses, from the first token of a source to the end. A program may be asked about every failure
on the way: if it says so, the token or the character that failed is left out and the parse goes on.
-/
import GrammarKit.LR.Machine
import GrammarKit.Scan.Source

namespace GrammarKit.LR

/-- Whether to go on after a failure, in view of the failures before it. -/
structure Recovery where
  goOn : List ParseFailure → ParseFailure → Bool

/-- The first `n` failures are passed over. -/
def Recovery.upTo (n : Nat) : Recovery := ⟨fun before _ => before.length < n⟩

/-- What became of a parse, and the failures that the program was asked about. -/
structure Parsed where
  result : Outcome Child
  asked : List ParseFailure

variable {σ : Type} [TokenSource σ]

/-- The source after the input that a lexing failure points at. -/
def skipFailed (source : σ) : ParseFailure → Option σ
  | .unexpectedToken t _ _ =>
    match t.span with
    | some s => TokenSource.skipTo source s.stop
    | none => TokenSource.skipChar source
  | .unexpectedCharacters .. => TokenSource.skipChar source
  | .unexpectedEnd _ => none

theorem size_skipFailed {source rest : σ} {f : ParseFailure} (h : skipFailed source f = some rest) :
    TokenSource.size rest < TokenSource.size source := by
  unfold skipFailed at h
  split at h
  · split at h
    · exact TokenSource.size_skipTo _ _ _ h
    · exact TokenSource.size_skipChar _ _ h
  · exact TokenSource.size_skipChar _ _ h
  · cases h

/-- The program's answer to a failure, and the failures it was asked about by then. -/
def Recovery.ask (recovery : Option Recovery) (asked : List ParseFailure) (f : ParseFailure) :
    Bool × List ParseFailure :=
  match recovery with
  | some r => (r.goOn asked f, asked ++ [f])
  | none => (false, asked)

/-- Feeds the tokens of a source to a machine, and then the end. -/
def Machine.run (p : Parser) (recovery : Option Recovery) (m : Machine) (source : σ)
    (asked : List ParseFailure) : Parsed :=
  match h : TokenSource.pull source (some m.current) with
  | (.ok none, _) => ⟨(m.finish p).1, asked⟩
  | (.ok (some t), rest) =>
    have hlt : TokenSource.size rest < TokenSource.size source := by
      have := TokenSource.size_pull_lt source (some m.current) t (by rw [h])
      rwa [h] at this
    match m.feed p t false with
    | (.ok _, m) => run p recovery m rest asked
    | (.error (.parse f), m) =>
      match Recovery.ask recovery asked f with
      | (true, asked) => run p recovery m rest asked
      | (false, asked) => ⟨.error (.parse f), asked⟩
    | (.error f, _) => ⟨.error f, asked⟩
  | (.error (.parse f), rest) =>
    have hle : TokenSource.size rest ≤ TokenSource.size source := by
      have := TokenSource.size_pull_le source (some m.current)
      rwa [h] at this
    match Recovery.ask recovery asked f with
    | (true, asked) =>
      match hs : skipFailed rest f with
      | some rest' =>
        have hlt := size_skipFailed hs
        run p recovery m rest' asked
      | none => ⟨.error (.parse f), asked⟩
    | (false, asked) => ⟨.error (.parse f), asked⟩
  | (.error f, _) => ⟨.error f, asked⟩
termination_by TokenSource.size source

/-- Parses the tokens of a source as a start symbol. -/
def Parser.parse (p : Parser) (source : σ) (start : String) (recovery : Option Recovery := none) :
    Parsed :=
  match Machine.start p start with
  | .ok m => m.run p recovery source []
  | .error f => ⟨.error f, []⟩

end GrammarKit.LR
