/-
What actions are called with. Where one derivation is kept of every stretch, each goal that is built is built by one
call. The call has a value for every symbol of its rule: the token at the symbol's place, or the value of a call for the
symbol's stretch that was made before. So what a call gets are the values of the trees of its symbols, and the last
call, which is for all tokens, gives the value of a tree of the start symbol.
-/
import GrammarKit.Proofs.Earley.Assembly
import GrammarKit.Proofs.Earley.Recognition

namespace GrammarKit.Earley

/-- A value for each symbol, over a stretch of tokens: the token itself, or the value of an earlier call. -/
inductive Fills (stands : String → Token → Prop) (w : List Token) (actions : Actions) (earlier : List Call) :
    List Symbol → Nat → Nat → List Child → Prop
  | nil {j : Nat} : Fills stands w actions earlier [] j j []
  | token {a : String} {t : Token} {ss : List Symbol} {j k : Nat} {cs : List Child} (ht : w[j]? = some t)
    (ha : stands a t) (rest : Fills stands w actions earlier ss (j + 1) k cs) :
    Fills stands w actions earlier (.terminal a :: ss) j k (.token t :: cs)
  | node {call : Call} {ss : List Symbol} {k : Nat} {cs : List Child} (hcall : call ∈ earlier)
    (rest : Fills stands w actions earlier ss call.goal.stop k cs) :
    Fills stands w actions earlier (.nonterminal call.goal.name :: ss) call.goal.start k (call.value actions :: cs)

/-- A call of a rule of its goal, on one value for each symbol. -/
structure Call.Fed (rules : List Rule) (stands : String → Token → Prop) (w : List Token) (actions : Actions)
    (earlier : List Call) (call : Call) : Prop where
  rule : rules[call.index]? = some call.rule
  origin : call.rule.origin = call.goal.name
  length : call.children.length = call.rule.symbols.length
  fills : Fills stands w actions earlier call.rule.symbols call.goal.start call.goal.stop call.children

section Fills

variable {stands : String → Token → Prop} {w : List Token} {actions : Actions} {earlier : List Call}

theorem Fills.append {ss zs : List Symbol} {j m k : Nat} {cs ds : List Child}
    (h : Fills stands w actions earlier ss j m cs) (h' : Fills stands w actions earlier zs m k ds) :
    Fills stands w actions earlier (ss ++ zs) j k (cs ++ ds) := by
  induction h with
  | nil => exact h'
  | token ht ha _ ih => exact .token ht ha (ih h')
  | node hcall _ ih => exact .node hcall (ih h')

end Fills

namespace Chart

variable {c : Chart} {a : Ambiguity} {actions : Actions} {f : Finished}

/-- Where one way is kept of every goal, a goal is built by one call, which gives its value. -/
theorem Grounded.exists_call (actions : Actions) (hf : c.Grounded a f) (hn : (f.map (·.1)).Nodup) (ha : a ≠ .explicit)
    {b : Goal} {ways : List LinkedWay} (h : f.lookup b = some (some ways)) :
    ∃ call, f.calls c actions b = [call] ∧ call.goal = b ∧ call.value actions = f.value c actions (.goal b) := by
  obtain ⟨pre, f', -, hm⟩ := hf.exists_madeOf h
  obtain ⟨way, rfl⟩ := hm.single ha
  have hcalls : f.calls c actions b = [⟨b, way.index, way.rule, way.links.map (f.value c actions)⟩] :=
    Finished.calls_eq h
  refine ⟨_, hcalls, rfl, ?_⟩
  rw [hf.value_goal hn h, hcalls]
  simp [joinAlternatives, distinctChildren]

/-- A needed goal that a way refers to was built by a call for a goal that was finished before the way. -/
theorem Grounded.exists_call_of_fits (hf : c.Grounded a f) (hn : (f.map (·.1)).Nodup) (ha : a ≠ .explicit)
    {pre f' : Finished} (hpre : f = pre ++ f') {needed : List Goal} {s : Symbol} {j k : Nat} {l : Link}
    (hl : c.Fits f' s j k l) {b : Goal} (hb : l.goal? = some b) (hneeded : b ∈ needed) :
    ∃ call ∈ (f'.order needed).flatMap (f.calls c actions),
      call.goal = b ∧ call.value actions = f.value c actions (.goal b) := by
  cases hl with
  | token => cases hb
  | goal hw =>
    cases hb
    have hn' : (f'.map (·.1)).Nodup := by
      rw [hpre, List.map_append, List.nodup_append] at hn
      exact hn.2.1
    have hw' := (Finished.lookup_append (hpre ▸ hn) (Finished.mem_of_lookup hw)).trans hw
    rw [← hpre] at hw'
    obtain ⟨call, hcall, hgoal, hvalue⟩ := hf.exists_call actions hn ha hw'
    refine ⟨call, List.mem_flatMap.2 ⟨_, ?_, hcall ▸ List.mem_singleton.2 rfl⟩, hgoal, hvalue⟩
    exact Finished.mem_order.2 ⟨(Finished.mem_completed hn').2 ⟨_, hw⟩, hneeded⟩

namespace Records

variable {g : ChartRules} {stands : String → Token → Prop} {start : String} {w : List Token}
  (hr : c.Records g stands start w)
include hr

/-- What stands for a symbol is its token or the value of the call that was made for its goal. -/
theorem fills_of_fits {f' : Finished} {s : Symbol} {j k : Nat} {l : Link} {earlier : List Call} (hl : c.Fits f' s j k l)
    (hcalls : ∀ b, l.goal? = some b →
      ∃ call ∈ earlier, call.goal = b ∧ call.value actions = f.value c actions (.goal b)) :
    Fills stands w actions earlier [s] j k [f.value c actions l] := by
  cases hl with
  | token ht =>
    obtain ⟨t, ht⟩ := Option.isSome_iff_exists.1 ht
    obtain ⟨rfl, hw, ha⟩ := hr.token?_eq_some ht
    rw [Finished.value, Link.unpack, ht]
    exact .token hw ha .nil
  | goal hw =>
    obtain ⟨call, hmem, hgoal, hvalue⟩ := hcalls _ rfl
    have hnode : Fills stands w actions earlier [.nonterminal call.goal.name] call.goal.start call.goal.stop
        [call.value actions] := .node hmem .nil
    rw [hgoal, hvalue] at hnode
    exact hnode

theorem fills_of_placed {f' : Finished} {ss : List Symbol} {j k : Nat} {ls : List Link} {earlier : List Call}
    (h : c.Placed (c.Fits f') ss j k ls) (hcalls : ∀ l ∈ ls, ∀ b, l.goal? = some b →
      ∃ call ∈ earlier, call.goal = b ∧ call.value actions = f.value c actions (.goal b)) :
    Fills stands w actions earlier ss j k (ls.map (f.value c actions)) := by
  induction h with
  | nil hj =>
    obtain rfl := hr.joins_iff.1 hj
    exact .nil
  | snoc he _ _ hl _ ih =>
    obtain rfl := hr.mem_ends_iff.1 he
    rw [List.map_append]
    exact (ih fun l hm => hcalls l (List.mem_append_left _ hm)).append
      (hr.fills_of_fits hl (hcalls _ (List.mem_append_right _ (List.mem_singleton.2 rfl))))

/-- The calls for the goals that are needed, in the order in which these were finished, are each fed by earlier ones. -/
theorem fed_of_order (ha : a ≠ .explicit) (hf : c.Grounded a f) (hn : (f.map (·.1)).Nodup) {needed : List Goal}
    (hclosed : ∀ b ∈ needed, ∀ b' ∈ f.references b, b' ∈ needed) : ∀ (f' pre : Finished), f = pre ++ f' →
    c.Grounded a f' → ∀ (before after : List Call) (call : Call),
      (f'.order needed).flatMap (f.calls c actions) = before ++ call :: after →
        call.Fed g.rules stands w actions before
  | [], _, _, _, before, after, call, h => by
    have hlen := congrArg List.length h
    simp [Finished.order, Finished.completed] at hlen
  | (b, found) :: (f' : Finished), pre, hpre, hg, before, after, call, h => by
    have hpre' : f = (pre ++ [(b, found)]) ++ f' := by rw [hpre, List.append_assoc]; rfl
    have ih := fed_of_order ha hf hn hclosed f' _ hpre' hg.2
    rw [Finished.order_cons] at h
    by_cases hnew : found.isSome = true ∧ b ∈ needed
    · obtain ⟨ways, rfl⟩ := Option.isSome_iff_exists.1 hnew.1
      have hways : f.lookup b = some (some ways) := by
        rw [hpre, Finished.lookup_append (hpre ▸ hn) (by simp)]
        simp
      have hm := hg.1 ways rfl
      obtain ⟨way, rfl⟩ := hm.single ha
      obtain ⟨hcand, hplaced⟩ := hm.way way (List.mem_singleton.2 rfl)
      rw [if_pos hnew, List.flatMap_append, List.flatMap_singleton, Finished.calls_eq hways, List.map_singleton] at h
      rcases List.eq_nil_or_concat' after with rfl | ⟨after, last, rfl⟩
      · obtain ⟨rfl, hlast⟩ := List.append_inj' h rfl
        obtain rfl := List.singleton_inj.1 hlast
        obtain ⟨horigin, hrule, -⟩ := hr.complete_of_mem_candidates hcand
        refine ⟨hrule, horigin, by rw [List.length_map, hplaced.length_eq], ?_⟩
        refine hr.fills_of_placed hplaced fun l hl b' hb' => ?_
        obtain ⟨s, j, k, hfits⟩ := hplaced.forall_mem l hl
        refine hf.exists_call_of_fits hn ha hpre' hfits hb' (hclosed b hnew.2 b' ?_)
        rw [Finished.references_eq hways]
        exact List.mem_flatMap.2 ⟨way, List.mem_singleton.2 rfl, List.mem_filterMap.2 ⟨l, hl, hb'⟩⟩
      · rw [← List.cons_append, ← List.append_assoc] at h
        exact ih before after call (List.append_inj' h rfl).1
    · rw [if_neg hnew, List.append_nil] at h
      exact ih before after call h

/-- What is called for the start symbol over all tokens: each call is fed by earlier ones, and the last one gives the
value of the start symbol. -/
theorem calls_fed (actions : Actions) (ha : a ≠ .explicit) {name : String} {p : Packed}
    (hp : c.derivation? a name = some p) :
    (∃ before last, c.calls a actions name = before ++ [last] ∧ last.goal = c.whole name ∧
      last.value actions = p.build actions) ∧
    ∀ before call after, c.calls a actions name = before ++ call :: after →
      call.Fed g.rules stands w actions before := by
  have hf := c.grounded_finished a name
  have hn := c.nodup_finished a name
  obtain ⟨ways, rest, hfin, hcalls, hderive⟩ := assemble_finished actions hp
  have hways : (c.finished a name).lookup (c.whole name) = some (some ways) := by rw [hfin]; simp
  rw [hcalls]
  refine ⟨?_, fun before call after h => hr.fed_of_order ha hf hn
    (Agenda.references_needed hf hn (Finished.mem_of_lookup hways)) _ [] rfl hf before after call h⟩
  obtain ⟨last, hlast, hgoal, hvalue⟩ := hf.exists_call actions hn ha hways
  have horder : (c.finished a name).order ((c.finished a name).needed (c.whole name)) =
      Finished.order ((c.finished a name).needed (c.whole name)) rest ++ [c.whole name] := by
    conv_lhs => rw [hfin, Finished.order_cons, ← hfin]
    rw [if_pos ⟨rfl, Agenda.self_mem_needed⟩]
  rw [derive_eq, hp, Option.map_some, Option.some.injEq] at hderive
  rw [horder, List.flatMap_append, List.flatMap_singleton, hlast]
  exact ⟨_, last, rfl, hgoal, hvalue.trans hderive.symm⟩

end Records

end Chart

/-! ## Parses -/

theorem pending_ofGoal (c : Chart) (a : Ambiguity) (root : Goal) : (Agenda.ofGoal c a root).pending = [] := by
  obtain ⟨found, rest, h, -, -⟩ := Chart.ofGoal_eq (c := c) a root
  rw [h]

/-- For all rules, cycles among them included, and every match that decides each terminal: the search for derivations
ends, and a parse that keeps one derivation of every stretch gives the value of a derivation tree of the start symbol,
whose leaves are the tokens. Actions are called with one value for each symbol of their rule: the token at the symbol's
place, or what an earlier call gave for the symbol's stretch. The last call is for all tokens and gives the result. -/
theorem parse_fed {conf : ParserConfig} {matches? : Chart.TokenMatch} {o : Options} {p : Parser}
    (hp : Parser.ofConfig conf matches? o = .ok p) (ho : o.ambiguity = .resolve)
    (hm : ∀ a t, ∃ b, matches? a t = .ok b) (start : String) (tokens : List Token) :
    (∀ c, Chart.ofTokens p.grammar p.matches? (Listed.ofTokens tokens) start = .ok c →
      (Agenda.ofGoal c o.ambiguity (c.whole start)).pending = []) ∧
    ∀ value, p.parse (Listed.ofTokens tokens) start = .ok value →
      (∃ d, Trees conf.rules matches?.Stands [.nonterminal start] tokens [d] ∧ d.leaves = tokens ∧
        value = d.build (conf.actions.atPlace conf.rules)) ∧
      ∃ c, Chart.ofTokens p.grammar p.matches? (Listed.ofTokens tokens) start = .ok c ∧
        (∃ before last, c.calls o.ambiguity conf.actions start = before ++ [last] ∧
          last.goal = ⟨start, 0, tokens.length⟩ ∧ last.value conf.actions = value) ∧
        ∀ before call after, c.calls o.ambiguity conf.actions start = before ++ call :: after →
          call.Fed conf.rules matches?.Stands tokens conf.actions before := by
  obtain ⟨rfl, -⟩ := ofConfig_eq_ok hp
  have hg : (ChartRules.ofRules conf.rules).Exact matches?.Stands := ChartRules.exact_ofRules _
  have ha : o.ambiguity ≠ .explicit := by rw [ho]; exact Ambiguity.noConfusion
  refine ⟨fun c _ => pending_ofGoal c _ _, fun value h => ?_⟩
  obtain ⟨c, packed, hc, -, hd, rfl⟩ := parse_eq_ok_iff.1 h
  have hr := records_of_ofTokens hg hm hc
  obtain ⟨d, hd', hbuild⟩ := hr.derivation?_sound ha hd
  have hfed := hr.calls_fed conf.actions ha hd
  rw [Chart.whole, hr.stop_eq] at hfed
  refine ⟨⟨d, hd', ?_, hbuild _⟩, c, hc, hfed⟩
  simpa [Derivation.leavesAll] using hd'.leaves_eq

/-- Rules in which an empty nonterminal stands twice at one place, before a nonterminal that leads into itself. -/
def sharedEmpty : List Rule :=
  [⟨"start", [⟨.nonterminal "e", false⟩, ⟨.nonterminal "e", false⟩, ⟨.nonterminal "s", false⟩], 0, none, {}⟩,
   ⟨"e", [], 0, none, {}⟩, ⟨"s", [⟨.nonterminal "s", false⟩], 0, none, {}⟩,
   ⟨"s", [⟨.terminal "x", false⟩], 1, none, {}⟩]

/-- The node of the empty nonterminal is built once, and both places get it. -/
theorem parse_fed_sharedEmpty : ∃ (p : Parser) (value : Child) (c : Chart),
    Parser.ofConfig ⟨sharedEmpty, {}, ["start"], false⟩ Chart.byName {} = .ok p ∧
      p.parse (Listed.ofTokens [.ofText "x" "x"]) "start" = .ok value ∧
      ∃ before last, c.calls .resolve {} "start" = before ++ [last] ∧ last.value {} = value ∧
        last.Fed sharedEmpty Chart.byName.Stands [.ofText "x" "x"] {} before := by
  have hp : Parser.ofConfig ⟨sharedEmpty, {}, ["start"], false⟩ Chart.byName {} =
      .ok ⟨.ofRules sharedEmpty, {}, Chart.byName, {}⟩ := rfl
  have hm : ∀ a t, ∃ b, Chart.byName a t = .ok b := fun _ _ => ⟨_, rfl⟩
  have hac : NoEmptyCycle sharedEmpty := by
    intro x y hxy _
    rcases Relation.ReflTransGen.cases_head hxy with h | ⟨z, ⟨r, hr, -, hz, hn⟩, -⟩
    · exact h
    · -- the only rule of nullable symbols has none
      have hall : ∀ r ∈ sharedEmpty, allNullable (nullableNames sharedEmpty) r.symbols = true → r.symbols = [] := by
        decide +kernel
      rw [hall r hr hn] at hz
      cases hz
  have hs : Yields sharedEmpty Chart.byName.Stands [.nonterminal "s"] [.ofText "x" "x"] :=
    yields_nonterminal_iff.2 ⟨sharedEmpty[3], by simp [sharedEmpty], rfl, .terminal rfl .nil⟩
  have he : Yields sharedEmpty Chart.byName.Stands [.nonterminal "e"] [] :=
    yields_nonterminal_iff.2 ⟨sharedEmpty[1], by simp [sharedEmpty], rfl, .nil⟩
  have hy : Yields sharedEmpty Chart.byName.Stands [.nonterminal "start"] [.ofText "x" "x"] :=
    yields_nonterminal_iff.2 ⟨sharedEmpty[0], by simp [sharedEmpty], rfl, he.append (he.append hs)⟩
  obtain ⟨value, hv⟩ := exists_parse_eq_ok hp hm hac hy
  obtain ⟨-, c, -, ⟨before, last, hcalls, -, hlast⟩, hfed⟩ :=
    (parse_fed hp rfl hm "start" [.ofText "x" "x"]).2 value hv
  exact ⟨_, value, c, hp, hv, before, last, hcalls, hlast, hfed before last [] hcalls⟩

end GrammarKit.Earley
