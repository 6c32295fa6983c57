/-
Sessions tell what comes next. A session that was fed tokens takes a terminal exactly if some sentence of its start
symbol begins with these tokens and goes on with the terminal, and it takes the end marker exactly if the tokens are
a sentence. This needs that every nonterminal derives something, that no name is reserved, and that no state has two
candidates before one terminal.
-/
import GrammarKit.LR.Session
import GrammarKit.Proofs.LR.Reading
import Mathlib

namespace GrammarKit.LR

/-- The moves of a table are for the terminals that are expected. -/
theorem Table.mem_expected {t : Table} {state : Nat} {a : String} : a ∈ t.expected state ↔
    ∃ m, t.move? state a = some m := by
  rw [expected, mem_sortedNames, terminals, move?]
  cases t.rows[state]? with
  | none => simp
  | some row =>
    show a ∈ row.moves.map (·.1) ↔ ∃ m, row.moves.lookup a = some m
    rw [← Option.isSome_iff_exists, List.lookup_isSome_iff]
    simp

namespace Session

/-- Tokens that a session was fed, one after the other, none of which it refused. -/
inductive Fed : Session → List Token → Session → Prop
  | nil {s : Session} : Fed s [] s
  | snoc {s s1 s2 : Session} {ts : List Token} {t : Token} {value : Option Child} (h : Fed s ts s1)
    (ht : s1.feed t = (.ok value, s2)) : Fed s (ts ++ [t]) s2

theorem feed_eq (s : Session) (t : Token) : s.feed t =
    ((s.machine.feed s.parser t (t.kind == endMarker)).1,
      { s with machine := (s.machine.feed s.parser t (t.kind == endMarker)).2 }) := rfl

/-- What a session accepts is what it takes: without a move nothing is taken. -/
theorem mem_accepts {s : Session} {a : String} : a ∈ s.accepts ↔ s.takes a = true := by
  simp only [accepts, choices, List.mem_filter, List.mem_map, List.mem_filterMap, Option.map_eq_some_iff,
    Table.mem_expected]
  refine ⟨fun h => h.2, fun h => ⟨?_, h⟩⟩
  cases hm : s.parser.table.move? s.machine.current a with
  | none =>
    rw [takes, feed_eq, Machine.feed, Machine.feedWithin, Machine.step] at h
    rw [show s.parser.table.move? s.machine.current (Token.ofText a "").kind = none from hm] at h
    cases h
  | some m => exact ⟨(a, m), ⟨a, ⟨m, hm⟩, m, hm, rfl⟩, rfl⟩

/-- A session has read what it was fed. -/
theorem Fed.hasRead {conf : ParserConfig} {p : Parser} {name : String} {first : Nat}
    (hu : Unreserved conf.rules conf.start) (ht : p.table.Realizes (Automaton.ofRules conf.rules conf.start))
    (hf : (Automaton.ofRules conf.rules conf.start).start? name = some first) {s s' : Session} {w : List Token}
    (h : Fed s w s') (hp : s.parser = p) (hm : s.machine = { states := [first] }) (hend : ∀ t ∈ w, t.kind ≠ endMarker) :
    s'.parser = p ∧ s'.machine.HasRead p first w := by
  induction h with
  | nil => exact ⟨hp, hm ▸ .of_start⟩
  | @snoc s1 s2 ts t value _ hfeed ih =>
    obtain ⟨hp1, hread⟩ := ih fun t ht => hend t (List.mem_append_left _ ht)
    rw [feed_eq, hp1] at hfeed
    injection hfeed with hvalue hs
    subst hs
    exact ⟨rfl, hread.feed hu ht hf (hend t (by simp)) (Prod.ext hvalue rfl)⟩

/-- Where no state has two candidates before one terminal, there is a session for every start symbol, and whatever
tokens it is fed, it accepts exactly the terminals with which a sentence can go on, and the end marker exactly after
a sentence. -/
theorem accepts_exact (conf : ParserConfig) (strict : Bool) (scanner : Option Scanner) {name : String}
    (hu : Unreserved conf.rules conf.start) (hp : Productive conf.rules) (hd : Deterministic conf.rules conf.start)
    (hn : name ∈ conf.start) : ∃ p s0, Parser.ofConfig conf strict = .ok p ∧
    Session.start p scanner name = .ok s0 ∧ ∀ w s, Fed s0 w s → (∀ t ∈ w, t.kind ≠ endMarker) →
      (∀ a, a ≠ endMarker → (a ∈ s.accepts ↔ ∃ x : List String,
        Derives conf.rules [.nonterminal name] ((w.map Token.kind ++ a :: x).map .terminal))) ∧
      (endMarker ∈ s.accepts ↔ Derives conf.rules [.nonterminal name] ((w.map Token.kind).map .terminal)) := by
  obtain ⟨p, hparser, -, ht⟩ := Parser.exists_ofConfig hd strict
  obtain ⟨first, hf⟩ := Automaton.exists_start hn
  have hstart : Session.start p scanner name = .ok { parser := p, machine := { states := [first] }, scanner } := by
    rw [Session.start, Machine.start, ht.start, hf]
    rfl
  refine ⟨p, _, hparser, hstart, fun w s hw hend => ?_⟩
  obtain ⟨rfl, hread⟩ := hw.hasRead hu ht hf rfl rfl hend
  refine ⟨fun a ha => ?_, ?_⟩
  · rw [mem_accepts, takes, feed_eq, hread.feed_isOk_iff hu hd ht hf hp ha]
    constructor
    · rintro ⟨us, hs⟩
      have hd := yields_isNamed_iff.1 hs
      rw [List.map_append, List.map_cons] at hd
      exact ⟨us.map Token.kind, hd⟩
    · rintro ⟨x, hx⟩
      -- tokens of the names that come after the terminal
      refine ⟨x.map fun n => .ofText n "", yields_isNamed_iff.2 ?_⟩
      rw [List.map_append, List.map_cons, kinds_ofText]
      exact hx
  · rw [mem_accepts, takes, feed_eq, hread.feed_end_isOk_iff hu hd ht hf rfl]
    exact yields_isNamed_iff

/-- Lists of one letter that another one ends. -/
def letterList : List Rule :=
  [⟨"s", [⟨.terminal "a", false⟩, ⟨.nonterminal "s", false⟩], 0, none, {}⟩,
    ⟨"s", [⟨.terminal "b", false⟩], 1, none, {}⟩]

theorem accepts_letterList : ∃ p s0 s, Parser.ofConfig ⟨letterList, {}, ["s"], false⟩ true = .ok p ∧
    Session.start p none "s" = .ok s0 ∧ Fed s0 [.ofText "a" ""] s ∧ "b" ∈ s.accepts := by
  have hu : Unreserved letterList ["s"] := by
    refine ⟨?_, ?_, ?_⟩ <;> simp [letterList, reserved_iff, Rule.symbols, Symbol.name]
  have hb : Derives letterList [.nonterminal "s"] [.terminal "b"] :=
    .single (.mk [] [] (r := letterList[1]) (by simp [letterList]))
  have hp : Productive letterList := by
    rintro n ⟨r, hr, hn⟩
    obtain rfl : n = "s" := by
      simp only [letterList, List.mem_cons, List.not_mem_nil, or_false] at hr
      rcases hr with rfl | rfl <;> simpa [Rule.symbols, eq_comm] using hn
    exact ⟨["b"], hb⟩
  have hd : Deterministic letterList ["s"] := by
    rw [← Automaton.settled_iff]
    cbv
  obtain ⟨p, s0, hparser, hstart, h⟩ :=
    accepts_exact ⟨letterList, {}, ["s"], false⟩ true none hu hp hd (List.mem_singleton_self "s")
  -- the letter is fed because it is accepted, and then a sentence is begun that the other one ends
  have hab : Derives letterList [.nonterminal "s"] [.terminal "a", .terminal "b"] :=
    .head (.mk [] [] (r := letterList[0]) (by simp [letterList])) (hb.append_left [.terminal "a"])
  have ha : s0.takes "a" = true := mem_accepts.1 (((h [] s0 .nil (by simp)).1 "a" (by decide)).2 ⟨["b"], hab⟩)
  obtain ⟨value, s, hs⟩ := exists_of_isOk ha
  have hfed : Fed s0 [.ofText "a" ""] s := .snoc .nil hs
  exact ⟨p, s0, s, hparser, hstart, hfed,
    ((h _ s hfed (by simp [Token.ofText, endMarker])).1 "b" (by decide)).2 ⟨[], hab⟩⟩

end Session

end GrammarKit.LR
