/-
Parsing by table, for grammars without empty rules. Tokens that are not derived are run through a chart to
find the first one that does not fit.
-/
import GrammarKit.Cyk.Table
import GrammarKit.Earley.Chart

namespace GrammarKit.Cyk

structure Parser where
  rules : List Rule
  normal : NormalForm

namespace Parser

def ofRules (rules : List Rule) : Outcome Parser := do
  return { rules, normal := ← NormalForm.ofRules rules }

/-- The rules as the search for a failure charts them: without empty rules there is no nonterminal to step over. -/
def recognizer (p : Parser) : Earley.ChartRules := ⟨p.rules, []⟩

/-- Where the columns of a chart break off: at the first token that is named after no terminal the last column waits
for, or at the end. -/
def replay (g : Earley.ChartRules) (columns : List Earley.Column) : List Token → ParseFailure
  | [] => .atEnd (g.expected (columns.getLastD []))
  | t :: rest =>
    match (g.waiting (columns.getLastD [])).filter fun (_, terminal) => terminal == t.kind with
    | [] => .atToken t (g.expected (columns.getLastD []))
    | taken => replay g (columns ++ [g.column columns (taken.map fun (i, _) => i.advance)]) rest

/-- Why tokens are not derived: the first token after which nothing fits, or the end. -/
def failure (p : Parser) (tokens : List Token) (start : String) : Failure :=
  match p.recognizer.seeds start with
  | .error f => f
  | .ok seeds => .parse (replay p.recognizer [p.recognizer.column [] seeds] tokens)

/-- The best derivation of all tokens as a start symbol. -/
def derive (p : Parser) (tokens : List Token) (start : String) : Outcome Derivation :=
  if (p.rules.filter (·.origin == start)).isEmpty then .error (.configuration (.unknownStart start))
  else match tokens with
    | [] => .error (p.failure [] start)
    | _ =>
      match (Table.ofTokens p.rules p.normal tokens).whole? start with
      | none => .error (p.failure tokens start)
      | some b =>
        match b.restore? with
        | some d => .ok d
        | none => .error (.grammar (.noDerivation start))

end Parser

end GrammarKit.Cyk
