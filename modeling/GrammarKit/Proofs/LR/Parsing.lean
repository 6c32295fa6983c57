/-
Parses by table come to the right end. With unique candidates and without dead ends, a token is shifted exactly if a
sentence goes on with it, so the first token that is refused is the first one up to which no sentence reaches. At the
end of the tokens a sentence is accepted with the value of its tree, and anything else is refused.
-/
import GrammarKit.LR.Recovery
import GrammarKit.Proofs.Grammar.Verdict
import GrammarKit.Proofs.LR.Reading

namespace GrammarKit.LR

/-! ## Parses that stop at the first failure -/

namespace Machine

variable {σ : Type} [TokenSource σ] {p : Parser} {m : Machine} {source rest : σ} {asked : List ParseFailure}

theorem run_stop (h : TokenSource.pull source (some m.current) = (.ok none, rest)) :
    m.run p none source asked = ⟨(m.finish p).1, asked⟩ := by
  rw [run]
  split <;> rename_i h' <;> cases h'.symm.trans h
  rfl

theorem run_next {t : Token} (h : TokenSource.pull source (some m.current) = (.ok (some t), rest)) :
    m.run p none source asked = match m.feed p t false with
      | (.ok _, m) => m.run p none rest asked
      | (.error f, _) => ⟨.error f, asked⟩ := by
  rw [run]
  split <;> rename_i h' <;> cases h'.symm.trans h
  rcases m.feed p t false with ⟨f | value, m'⟩
  · cases f <;> rfl
  · rfl

theorem run_failing {f : Failure} (h : TokenSource.pull source (some m.current) = (.error f, rest)) :
    m.run p none source asked = ⟨.error f, asked⟩ := by
  rw [run]
  split <;> rename_i h' <;> cases h'.symm.trans h <;> rfl

theorem run_nil (m : Machine) : m.run p none (Listed.ofTokens []) asked = ⟨(m.finish p).1, asked⟩ := run_stop rfl

theorem run_cons (m : Machine) (t : Token) (ts : List Token) : m.run p none (Listed.ofTokens (t :: ts)) asked =
    match m.feed p t false with
    | (.ok _, m) => m.run p none (Listed.ofTokens ts) asked
    | (.error f, _) => ⟨.error f, asked⟩ :=
  run_next rfl

end Machine

/-! ## Verdicts -/

namespace Machine.HasRead

variable {rules : List Rule} {start : List String} {name : String} {first : Nat} {p : Parser} {m : Machine}
  {ts : List Token} (hu : Unreserved rules start) (hd : Deterministic rules start)
  (ht : p.table.Realizes (Automaton.ofRules rules start))
  (hf : (Automaton.ofRules rules start).start? name = some first)
  (hp : Productive rules)
include hu hd ht hf hp

/-- A token is fed, or it is refused; reductions do not go on forever, and they have somewhere to go on. -/
theorem feed_cases (h : m.HasRead p first ts) (t : Token) (atEnd : Bool) : (m.feed p t atEnd).1.isOk = true ∨
    ∃ names m', m.feed p t atEnd = (.error (.parse (if atEnd then .atEnd names else .atToken t names)), m') := by
  obtain ⟨n, m', hr, hm⟩ := h.exists_end hu hd ht hf hp t.kind
  cases hmove : p.table.move? m'.current t.kind with
  | none => exact .inr ⟨_, _, hr.feed_of_refused (Parser.lt_of_goto ht) hmove atEnd⟩
  | some move =>
    left
    cases move with
    | shift j => rw [hr.feed_of_shift (Parser.lt_of_goto ht) hmove]; rfl
    | reduce i => exact absurd hmove (hm i)
    | accept => rw [hr.feed_of_accept (Parser.lt_of_goto ht) hmove]; rfl

/-- The end is accepted after a sentence with the value of a tree, and refused after anything else. -/
theorem finish_verdict (h : m.HasRead p first ts) (hv : Viable rules IsNamed name ts) :
    Verdict rules name (p.actions.atPlace p.table.rules) ts (m.finish p).1 := by
  unfold Machine.finish
  by_cases hy : Yields rules IsNamed [.nonterminal name] ts
  · obtain ⟨d, htree⟩ := hy.exists_tree
    obtain ⟨n, m', hr, hacc, hvals⟩ := h.exists_accept hu hd ht hf htree
    have hfeed : m.feed p m.endToken true = _ := Runs.feed_of_accept (Parser.lt_of_goto ht) hr hacc true
    rw [hfeed, hvals]
    exact .value htree
  · rcases h.feed_cases hu hd ht hf hp m.endToken true with hok | ⟨names, m', hfeed⟩
    · exact absurd ((h.feed_end_isOk_iff hu hd ht hf rfl true).1 hok) hy
    · rw [hfeed]
      exact .ended hv hy

theorem run_verdict (hs : ∃ r ∈ rules, r.origin = name) (asked : List ParseFailure) (us : List Token) :
    ∀ {m : Machine} {ts : List Token}, m.HasRead p first ts → Viable rules IsNamed name ts →
    (∀ t ∈ us, t.kind ≠ endMarker) →
      Verdict rules name (p.actions.atPlace p.table.rules) (ts ++ us)
      (m.run p none (Listed.ofTokens us) asked).result := by
  induction us with
  | nil =>
    intro m ts h hv _
    rw [run_nil, List.append_nil]
    exact h.finish_verdict hu hd ht hf hp hv
  | cons t us ih =>
    intro m ts h hv hend
    have hkind := hend t (List.mem_cons_self ..)
    have hiff := h.feed_isOk_iff hu hd ht hf hp hkind false
    rcases h.feed_cases hu hd ht hf hp t false with hok | ⟨names, m', hfeed⟩
    · obtain ⟨xs, hx⟩ := hiff.1 hok
      obtain ⟨value, m', hfeed⟩ := exists_of_isOk hok
      rw [run_cons, hfeed, List.append_cons]
      rw [List.append_cons] at hx
      exact ih (h.feed hu ht hf hkind hfeed) (viable_of_yields hx).of_append fun x hx =>
        hend x (List.mem_cons_of_mem _ hx)
    · rw [run_cons, hfeed]
      refine .refused rfl hv fun hvt => ?_
      obtain ⟨xs, hx⟩ := hvt.exists_sentence hp hs
      have hok := hiff.2 ⟨xs, by rwa [List.append_cons]⟩
      rw [hfeed] at hok
      cases hok

end Machine.HasRead

/-- A parse of tokens comes to the right end. -/
theorem parse_verdict {c : ParserConfig} {name : String} (hu : Unreserved c.rules c.start) (hp : Productive c.rules)
    (hd : Deterministic c.rules c.start) (hn : name ∈ c.start) (hs : ∃ r ∈ c.rules, r.origin = name) (strict : Bool) :
    ∃ p, Parser.ofConfig c strict = .ok p ∧ ∀ tokens : List Token, (∀ t ∈ tokens, t.kind ≠ endMarker) →
      Verdict c.rules name (c.actions.atPlace c.rules) tokens (p.parse (Listed.ofTokens tokens) name none).result := by
  obtain ⟨p, hparser, hact, ht⟩ := Parser.exists_ofConfig hd strict
  obtain ⟨first, hf⟩ := Automaton.exists_start hn
  refine ⟨p, hparser, fun tokens hend => ?_⟩
  have hparse : p.parse (Listed.ofTokens tokens) name none =
    ({ states := [first] } : Machine).run p none (Listed.ofTokens tokens) [] := by
    rw [Parser.parse, Machine.start, ht.start, hf]
  rw [hparse]
  have hverdict := Machine.HasRead.run_verdict hu hd ht hf hp hs [] tokens .of_start viable_nil hend
  -- root rules do not stand in trees
  have hplace : ∀ i r, c.rules[i]? = some r → p.actions.atPlace p.table.rules i = c.actions.atPlace c.rules i := by
    intro i r hr
    rw [hact, Actions.atPlace_eq hr, Actions.atPlace_eq (by rw [ht.rules]; exact Automaton.getElem?_of_rule hr)]
  exact Verdict.congr hplace hverdict

end GrammarKit.LR
