/-
Where parsers get their tokens from. A source is asked for one token at a time and may be told to skip
input after a failure; each token and each skip leaves less ahead, so a parser that only asks and skips
comes to an end.
-/
import GrammarKit.Scan.Contextual
import GrammarKit.Scan.Custom

namespace GrammarKit

class TokenSource (σ : Type) where
  /-- The next token, given the parser's state where there is one. -/
  pull : σ → Option Nat → Outcome (Option Token) × σ
  /-- Skips the character that the last failure pointed at. -/
  skipChar : σ → Option σ := fun _ => none
  /-- Skips to a byte offset. -/
  skipTo : σ → Nat → Option σ := fun _ _ => none
  size : σ → Nat
  size_pull_le : ∀ s p, size (pull s p).2 ≤ size s
  size_pull_lt : ∀ s p t, (pull s p).1 = .ok (some t) → size (pull s p).2 < size s
  size_skipChar : ∀ s s', skipChar s = some s' → size s' < size s
  size_skipTo : ∀ s n s', skipTo s n = some s' → size s' < size s

/-! ## Lexers at work -/

inductive Lexer where
  | basic (lexicon : Lexicon)
  | contextual (lexer : ContextualLexer)
  | custom (lexer : CustomLexer)

namespace Lexer

def openWindow (l : Lexer) (w : Window) : Cursor :=
  match l with
  | custom c => c.openWindow w
  | _ => Cursor.ofWindow w

def pull (l : Lexer) (state : Option Nat) (c : Cursor) : Pulled c :=
  match l with
  | basic x => x.pull c
  | contextual x => x.pull state c
  | custom x => x.pull state c

end Lexer

/-- A lexer on its way through a window. -/
structure Scanner where
  lexer : Lexer
  cursor : Cursor

namespace Scanner

def start (l : Lexer) (w : Window) : Scanner := ⟨l, l.openWindow w⟩

def pull (s : Scanner) (state : Option Nat) : Outcome (Option Token) × Scanner :=
  let p := s.lexer.pull state s.cursor
  (p.result, { s with cursor := p.cursor })

end Scanner

instance : TokenSource Scanner where
  pull := Scanner.pull
  skipChar s := s.cursor.skipChar.map fun c => { s with cursor := c }
  skipTo s n := (s.cursor.skipTo n).map fun c => { s with cursor := c }
  size s := s.cursor.size
  size_pull_le s p := (s.lexer.pull p s.cursor).size_le
  size_pull_lt s p t h := (s.lexer.pull p s.cursor).size_lt t h
  size_skipChar s s' h := by
    obtain ⟨c, hc, rfl⟩ := Option.map_eq_some_iff.mp h
    exact Cursor.size_skipChar hc
  size_skipTo s n s' h := by
    obtain ⟨c, hc, rfl⟩ := Option.map_eq_some_iff.mp h
    exact Cursor.size_skipTo hc

/-! ## Tokens through a hook -/

/-- A source whose tokens go through a hook. -/
structure Hooked (σ : Type) where
  hook : PostLexer
  inner : σ
  /-- The tokens that follow when the inner source has ended. -/
  appended : List Token

namespace Hooked

variable {σ : Type} [TokenSource σ]

def start (hook : PostLexer) (inner : σ) : Hooked σ := ⟨hook, inner, hook.appended⟩

def size (s : Hooked σ) : Nat := TokenSource.size s.inner + s.appended.length

/-- The next token of the inner source that the hook keeps. -/
def pull (s : Hooked σ) (state : Option Nat) : Outcome (Option Token) × Hooked σ :=
  match h : (TokenSource.pull s.inner state).1 with
  | .error f => (.error f, { s with inner := (TokenSource.pull s.inner state).2 })
  | .ok none =>
    match s.appended with
    | [] => (.ok none, { s with inner := (TokenSource.pull s.inner state).2 })
    | t :: rest => (.ok (some t), { s with inner := (TokenSource.pull s.inner state).2, appended := rest })
  | .ok (some t) =>
    have := TokenSource.size_pull_lt s.inner state t h
    match s.hook.update t with
    | some t => (.ok (some t), { s with inner := (TokenSource.pull s.inner state).2 })
    | none => pull { s with inner := (TokenSource.pull s.inner state).2 } state
termination_by TokenSource.size s.inner

theorem size_pull_le (s : Hooked σ) (state : Option Nat) : (s.pull state).2.size ≤ s.size := by
  fun_induction pull s state with
  | case1 s f h | case2 s h _ =>
    have := TokenSource.size_pull_le s.inner state
    simp only [size]; omega
  | case3 s h t rest ha =>
    have := TokenSource.size_pull_le s.inner state
    simp only [size, ha, List.length_cons]; omega
  | case4 s t h hlt u hu => simp only [size]; omega
  | case5 s t h hlt hu ih => simp only [size] at ih ⊢; omega

theorem size_pull_lt (s : Hooked σ) (state : Option Nat) (t : Token)
    (ht : (s.pull state).1 = .ok (some t)) : (s.pull state).2.size < s.size := by
  fun_induction pull s state with
  | case1 s f h | case2 s h _ => simp at ht
  | case3 s h u rest ha =>
    have := TokenSource.size_pull_le s.inner state
    simp only [size, ha, List.length_cons]; omega
  | case4 s u h hlt v hv => simp only [size]; omega
  | case5 s u h hlt hv ih =>
    have := ih ht
    simp only [size] at this ⊢; omega

end Hooked

instance {σ : Type} [TokenSource σ] : TokenSource (Hooked σ) where
  pull := Hooked.pull
  skipChar s := if s.hook.skips then
      (TokenSource.skipChar s.inner).map fun i => { s with inner := i }
    else none
  skipTo s n := if s.hook.skips then
      (TokenSource.skipTo s.inner n).map fun i => { s with inner := i }
    else none
  size := Hooked.size
  size_pull_le := Hooked.size_pull_le
  size_pull_lt := Hooked.size_pull_lt
  size_skipChar s s' h := by
    split at h
    · obtain ⟨i, hi, rfl⟩ := Option.map_eq_some_iff.mp h
      have := TokenSource.size_skipChar _ _ hi
      simp only [Hooked.size]; omega
    · cases h
  size_skipTo s n s' h := by
    split at h
    · obtain ⟨i, hi, rfl⟩ := Option.map_eq_some_iff.mp h
      have := TokenSource.size_skipTo _ _ _ hi
      simp only [Hooked.size]; omega
    · cases h

/-! ## Given tokens -/

/-- A source that hands out a list of tokens and failures one by one. -/
structure Listed where
  items : List (Outcome Token)

namespace Listed

def ofTokens (ts : List Token) : Listed := ⟨ts.map .ok⟩

def pull (s : Listed) (_ : Option Nat) : Outcome (Option Token) × Listed :=
  match s.items with
  | [] => (.ok none, s)
  | .ok t :: rest => (.ok (some t), ⟨rest⟩)
  | .error f :: rest => (.error f, ⟨rest⟩)

end Listed

instance : TokenSource Listed where
  pull := Listed.pull
  size s := s.items.length
  size_pull_le s p := by unfold Listed.pull; split <;> simp_all
  size_pull_lt s p t h := by unfold Listed.pull at *; split at h <;> simp_all
  size_skipChar _ _ h := by cases h
  size_skipTo _ _ _ h := by cases h

/-! ## Draining -/

/-- Every token up to the end of a source or its first failure, and the source afterwards. -/
def TokenSource.drain {σ : Type} [TokenSource σ] (s : σ) : List Token × Option Failure × σ :=
  match h : (pull s none).1 with
  | .error f => ([], some f, (pull s none).2)
  | .ok none => ([], none, (pull s none).2)
  | .ok (some t) =>
    have := size_pull_lt s none t h
    let (ts, f, s') := drain (pull s none).2
    (t :: ts, f, s')
termination_by size s

end GrammarKit
