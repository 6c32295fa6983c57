/-
Tables do what their automaton allows. Every move of a table that was built is a candidate of the state, and
wherever there is a candidate there is a move. Where no state has two candidates before one terminal, the table
is built, strict or not, and its moves are exactly the candidates.
-/
import GrammarKit.LR.Table
import GrammarKit.Proofs.LR.Lookahead
import GrammarKit.Proofs.Names
import GrammarKit.Proofs.Outcome

namespace GrammarKit.LR

/-! ## Candidates -/

/-- Whether the rule at a place derives a start symbol and nothing else. -/
def Automaton.isRoot (a : Automaton) (i : Nat) : Bool := a.roots.any (·.2.2 == i)

/-- What a state may do before a terminal. -/
inductive Automaton.Candidate (a : Automaton) (state : Nat) (terminal : String) : Move → Prop
  | shift {target : Nat} (h : a.target? state (.terminal terminal) = some target) :
      Candidate a state terminal (.shift target)
  | reduce {d : DottedRule} (h : a.Entered state ⟨d, terminal⟩) (hd : d.isComplete a.rules = true)
    (hr : a.isRoot d.rule = false) : Candidate a state terminal (.reduce d.rule)
  | accept {d : DottedRule} (h : a.Entered state ⟨d, terminal⟩) (hd : d.isComplete a.rules = true)
    (hr : a.isRoot d.rule = true) : Candidate a state terminal .accept

/-- Every state has at most one candidate before each terminal. -/
def Deterministic (rules : List Rule) (start : List String) : Prop :=
  ∀ state terminal m m', (Automaton.ofRules rules start).Candidate state terminal m →
    (Automaton.ofRules rules start).Candidate state terminal m' → m = m'

/-- A table has the moves of an automaton. -/
structure Table.Realizes (t : Table) (a : Automaton) : Prop where
  rules : t.rules = a.rules
  length : t.rows.length = a.states.length
  sound : ∀ state terminal m, t.move? state terminal = some m → a.Candidate state terminal m
  total : ∀ state terminal m, a.Candidate state terminal m → ∃ m', t.move? state terminal = some m'
  goto : ∀ state n, t.goto? state n = a.target? state (.nonterminal n)
  start : ∀ name, t.start? name = a.start? name

/-! ## Lists of moves -/

section Lookup

theorem lookup_replace {β : Type} (a x : String) (b : β) : ∀ l : List (String × β),
    ((a, b) :: l.filter (·.1 != a)).lookup x = if x = a then some b else l.lookup x
  | [] => by
    rw [List.filter_nil, List.lookup_cons]
    by_cases h : x = a
    · simp [h]
    · simp [h, beq_eq_false_iff_ne.2 h]
  | (y, c) :: l => by
    have ih := lookup_replace a x b l
    rw [List.lookup_cons] at ih ⊢
    by_cases h : x = a
    · simp [h]
    · simp only [beq_eq_false_iff_ne.2 h, if_neg h] at ih ⊢
      rw [List.filter_cons]
      by_cases hy : y = a
      · have hxy : x ≠ y := fun hxy => h (hxy.trans hy)
        simp [hy, ih, List.lookup_cons, beq_eq_false_iff_ne.2 h]
      · rw [if_pos (by simpa using hy), List.lookup_cons, List.lookup_cons, ih]

theorem lookup_shifts (x : String) : ∀ out : List (Symbol × Nat),
    (out.filterMap fun (s, target) => match s with
      | .terminal n => some (n, Move.shift target)
      | .nonterminal _ => none).lookup x = (out.lookup (.terminal x)).map .shift
  | [] => rfl
  | (.nonterminal n, target) :: out => by
    rw [List.filterMap_cons_none rfl, lookup_shifts x out, List.lookup_cons]
    rfl
  | (.terminal n, target) :: out => by
    show ((n, Move.shift target) :: List.filterMap _ out).lookup x = _
    rw [List.lookup_cons, List.lookup_cons, lookup_shifts x out]
    by_cases h : x = n
    · simp [h]
    · simp [beq_eq_false_iff_ne.2 h, show (Symbol.terminal x == Symbol.terminal n) = false by simpa using h]

theorem lookup_gotos (x : String) : ∀ out : List (Symbol × Nat),
    (out.filterMap fun (s, target) => match s with
      | .terminal _ => none
      | .nonterminal n => some (n, target)).lookup x = out.lookup (.nonterminal x)
  | [] => rfl
  | (.terminal n, target) :: out => by
    rw [List.filterMap_cons_none rfl, lookup_gotos x out, List.lookup_cons]
    rfl
  | (.nonterminal n, target) :: out => by
    show ((n, target) :: List.filterMap _ out).lookup x = _
    rw [List.lookup_cons, List.lookup_cons, lookup_gotos x out]
    by_cases h : x = n
    · simp [h]
    · simp [beq_eq_false_iff_ne.2 h, show (Symbol.nonterminal x == Symbol.nonterminal n) = false by simpa using h]

theorem eq_singleton_of_nodup {α : Type} {x : α} : ∀ {l : List α}, l.Nodup → x ∈ l → (∀ y ∈ l, y = x) → l = [x]
  | [y], _, _, h => by rw [h y (List.mem_singleton_self _)]
  | y :: z :: l, hn, _, h => by
    have hy := h y (List.mem_cons_self ..)
    have hz := h z (List.mem_cons_of_mem _ (List.mem_cons_self ..))
    rw [hy, hz] at hn
    exact absurd (List.mem_cons_self ..) (List.nodup_cons.1 hn).1

end Lookup

/-! ## Rows -/

theorem chooseReduction_eq_ok {rules : List Rule} {state : Nat} {terminal : String} {candidates : List Nat}
    {i : Nat} {r : Rule} (h : chooseReduction rules state terminal candidates = .ok (i, r)) : i ∈ candidates := by
  unfold chooseReduction at h
  dsimp only at h
  split at h
  · rename_i winner hw
    cases h
    have hmem : (i, r) ∈ [(i, r)] := List.mem_singleton_self _
    rw [← hw] at hmem
    obtain ⟨j, hj, hr⟩ := List.mem_filterMap.1 (List.mem_filter.1 hmem).1
    obtain ⟨r', -, he⟩ := Option.map_eq_some_iff.1 hr
    cases he
    exact hj
  · cases h

theorem chooseReduction_singleton {rules : List Rule} {state : Nat} {terminal : String} {i : Nat} {r : Rule}
    (h : rules[i]? = some r) : chooseReduction rules state terminal [i] = .ok (i, r) := by
  simp [chooseReduction, h]

/-- The rule that is chosen gives way to a shift, unless the table is strict. -/
theorem addReduction_of_chosen {rules : List Rule} {isRoot : Nat → Bool} (strict : Bool) {state : Nat}
    (moves : List (String × Move)) {terminal : String} {candidates : List Nat} {i : Nat} {r : Rule}
    (hroot : ¬ candidates.any isRoot = true) (hc : chooseReduction rules state terminal candidates = .ok (i, r)) :
    (∃ target, moves.lookup terminal = some (.shift target) ∧
      addReduction rules isRoot strict state moves terminal candidates =
        if strict then .error (.grammar (.shiftReduce terminal state r)) else .ok moves) ∨
    (∀ target, moves.lookup terminal ≠ some (.shift target)) ∧
      addReduction rules isRoot strict state moves terminal candidates =
        .ok ((terminal, .reduce i) :: moves.filter (·.1 != terminal)) := by
  simp only [addReduction, if_neg hroot, hc, bind, Except.bind]
  split
  · rename_i target hs
    refine .inl ⟨target, hs, ?_⟩
    split <;> rfl
  · rename_i hs
    exact .inr ⟨hs, rfl⟩

/-- What complete rules add before a terminal: the other moves stay, and there is a move for the terminal. -/
theorem addReduction_eq_ok {rules : List Rule} {isRoot : Nat → Bool} {strict : Bool} {state : Nat}
    {moves moves' : List (String × Move)} {terminal : String} {candidates : List Nat}
    (h : addReduction rules isRoot strict state moves terminal candidates = .ok moves') :
    (∀ x, x ≠ terminal → moves'.lookup x = moves.lookup x) ∧
      ((candidates.any isRoot = true ∧ moves'.lookup terminal = some .accept) ∨
        (candidates.any isRoot = false ∧ ∃ i ∈ candidates, moves'.lookup terminal = some (.reduce i)) ∨
        ∃ target, moves.lookup terminal = some (.shift target) ∧ moves'.lookup terminal = some (.shift target)) := by
  by_cases hroot : candidates.any isRoot = true
  · rw [addReduction, if_pos hroot] at h
    cases h
    exact ⟨fun x hx => by rw [lookup_replace, if_neg hx], .inl ⟨hroot, by rw [lookup_replace, if_pos rfl]⟩⟩
  · cases hc : chooseReduction rules state terminal candidates with
    | error e =>
      rw [addReduction, if_neg hroot, hc] at h
      cases h
    | ok winner =>
      obtain ⟨i, r⟩ := winner
      have hi := chooseReduction_eq_ok hc
      rcases addReduction_of_chosen strict moves hroot hc with ⟨target, hs, heq⟩ | ⟨-, heq⟩
      · rw [heq] at h
        split at h
        · cases h
        · cases h
          exact ⟨fun _ _ => rfl, .inr (.inr ⟨target, hs, hs⟩)⟩
      · rw [heq] at h
        cases h
        refine ⟨fun x hx => by rw [lookup_replace, if_neg hx], .inr (.inl ⟨by simpa using hroot, i, hi, ?_⟩)⟩
        rw [lookup_replace, if_pos rfl]

namespace Automaton

variable {a : Automaton} {state : Nat} {k : Kernel} {terminal : String} {strict : Bool}

/-- The rules that a state may reduce before a terminal, in ascending order. -/
def reductions (a : Automaton) (state : Nat) (k : Kernel) (terminal : String) : List Nat :=
  fresh [] ((((a.completed a.sets (a.facts a.sets) state k).filter (·.follower == terminal)).map
    (·.item.rule)).mergeSort (· ≤ ·))

theorem mem_completed (hk : a.states[state]? = some k) {e : Entry} :
    e ∈ a.completed a.sets (a.facts a.sets) state k ↔ a.Entered state e ∧ e.item.isComplete a.rules = true := by
  show e ∈ (closeEntries a.sets (a.seeds state k)).filter _ ↔ _
  rw [List.mem_filter]
  refine and_congr_left fun _ => ⟨fun h => ⟨k, hk, h⟩, fun ⟨k', hk', h⟩ => ?_⟩
  obtain rfl := Option.some.inj (hk.symm.trans hk')
  exact h

theorem mem_reductions (hk : a.states[state]? = some k) {i : Nat} : i ∈ a.reductions state k terminal ↔
    ∃ d, a.Entered state ⟨d, terminal⟩ ∧ d.isComplete a.rules = true ∧ d.rule = i := by
  simp only [reductions, mem_fresh, List.mem_mergeSort, List.mem_map, List.mem_filter, mem_completed hk, beq_iff_eq,
    List.not_mem_nil, not_false_eq_true, and_true]
  constructor
  · rintro ⟨⟨d, _⟩, ⟨⟨he, hd⟩, rfl⟩, rfl⟩; exact ⟨d, he, hd, rfl⟩
  · rintro ⟨d, he, hd, rfl⟩; exact ⟨⟨d, terminal⟩, ⟨⟨he, hd⟩, rfl⟩, rfl⟩

/-- The moves of a state to which complete rules are added. -/
def shifts (a : Automaton) (state : Nat) : List (String × Move) :=
  ((a.moves[state]?).getD []).filterMap fun (s, target) => match s with
    | .terminal n => some (n, Move.shift target)
    | .nonterminal _ => none

theorem lookup_getD_moves (s : Symbol) : ((a.moves[state]?).getD []).lookup s = a.target? state s := by
  rw [target?]
  cases a.moves[state]? <;> rfl

theorem lookup_shifts_eq : (a.shifts state).lookup terminal = (a.target? state (.terminal terminal)).map .shift := by
  rw [shifts, lookup_shifts, lookup_getD_moves]

/-- A row is what the complete rules make of the shifts. -/
theorem row_eq_ok_iff {row : Row} : a.row a.sets (a.facts a.sets) strict state k = .ok row ↔
    (sortedNames ((a.completed a.sets (a.facts a.sets) state k).map (·.follower))).foldlM (fun moves terminal =>
      addReduction a.rules a.isRoot strict state moves terminal (a.reductions state k terminal)) (a.shifts state) =
      .ok row.moves ∧
    row.gotos = ((a.moves[state]?).getD []).filterMap fun (s, target) => match s with
      | .terminal _ => none
      | .nonterminal n => some (n, target) := by
  have heq : a.row a.sets (a.facts a.sets) strict state k =
      ((sortedNames ((a.completed a.sets (a.facts a.sets) state k).map (·.follower))).foldlM (fun moves terminal =>
        addReduction a.rules a.isRoot strict state moves terminal (a.reductions state k terminal)) (a.shifts state)
          >>= fun moves =>
      pure { moves, gotos := ((a.moves[state]?).getD []).filterMap fun (s, target) => match s with
        | .terminal _ => none
        | .nonterminal n => some (n, target) }) := rfl
  rw [heq]
  cases (sortedNames ((a.completed a.sets (a.facts a.sets) state k).map (·.follower))).foldlM (fun moves terminal =>
      addReduction a.rules a.isRoot strict state moves terminal (a.reductions state k terminal)) (a.shifts state) with
  | error e => simp [bind, Except.bind]
  | ok moves =>
    obtain ⟨ms, gs⟩ := row
    simp [bind, Except.bind, pure, Except.pure, eq_comm]

/-- What holds of the moves of a state while complete rules are added. -/
structure Adding (a : Automaton) (state : Nat) (done : List String) (moves : List (String × Move)) : Prop where
  sound : ∀ terminal m, moves.lookup terminal = some m → a.Candidate state terminal m
  added : ∀ terminal ∈ done, ∃ m, moves.lookup terminal = some m
  shifts : ∀ terminal target, a.target? state (.terminal terminal) = some target → ∃ m, moves.lookup terminal = some m

theorem adding_shifts : a.Adding state [] (a.shifts state) := by
  refine ⟨fun terminal m h => ?_, fun _ h => (by cases h), fun terminal target h =>
    ⟨_, by rw [lookup_shifts_eq, h]; rfl⟩⟩
  rw [lookup_shifts_eq] at h
  obtain ⟨target, ht, rfl⟩ := Option.map_eq_some_iff.1 h
  exact .shift ht

theorem Adding.step (hk : a.states[state]? = some k) {done : List String} {moves moves' : List (String × Move)}
    (h : a.Adding state done moves)
    (hm : addReduction a.rules a.isRoot strict state moves terminal (a.reductions state k terminal) = .ok moves') :
    a.Adding state (done ++ [terminal]) moves' := by
  obtain ⟨hother, hcase⟩ := addReduction_eq_ok hm
  have hmove : ∃ m, moves'.lookup terminal = some m ∧ a.Candidate state terminal m := by
    rcases hcase with ⟨hroot, hl⟩ | ⟨hroot, i, hi, hl⟩ | ⟨target, hl, hl'⟩
    · obtain ⟨i, hi, hr⟩ := List.any_eq_true.1 hroot
      obtain ⟨d, he, hd, rfl⟩ := (mem_reductions hk).1 hi
      exact ⟨_, hl, .accept he hd hr⟩
    · obtain ⟨d, he, hd, rfl⟩ := (mem_reductions hk).1 hi
      exact ⟨_, hl, .reduce he hd (by simpa using List.any_eq_false.1 hroot _ hi)⟩
    · exact ⟨_, hl', h.sound _ _ hl⟩
  obtain ⟨m, hl, hc⟩ := hmove
  refine ⟨fun x m' hx => ?_, fun x hx => ?_, fun x target hx => ?_⟩
  · by_cases hxt : x = terminal
    · subst hxt
      rw [hl] at hx
      cases hx
      exact hc
    · exact h.sound x m' (by rw [← hother x hxt]; exact hx)
  · by_cases hxt : x = terminal
    · exact ⟨m, hxt ▸ hl⟩
    · rw [hother x hxt]
      exact h.added x ((List.mem_append.1 hx).resolve_right (by simpa using hxt))
  · by_cases hxt : x = terminal
    · exact ⟨m, hxt ▸ hl⟩
    · rw [hother x hxt]
      exact h.shifts x target hx

/-- The moves of a row are candidates, and there is one wherever there is a candidate. -/
theorem row_spec {row : Row} (hk : a.states[state]? = some k)
    (h : a.row a.sets (a.facts a.sets) strict state k = .ok row) :
    (∀ terminal m, row.moves.lookup terminal = some m → a.Candidate state terminal m) ∧
    (∀ terminal m, a.Candidate state terminal m → ∃ m', row.moves.lookup terminal = some m') ∧
    ∀ n, row.gotos.lookup n = a.target? state (.nonterminal n) := by
  obtain ⟨hm, hg⟩ := row_eq_ok_iff.1 h
  have hadd := foldlM_induction (I := a.Adding state) (fun done terminal moves moves' hb hs => hb.step hk hs) _ [] _ _
    adding_shifts hm
  refine ⟨hadd.sound, fun terminal m hc => ?_, fun n => ?_⟩
  · have hdone : ∀ {d : DottedRule}, a.Entered state ⟨d, terminal⟩ → d.isComplete a.rules = true →
        ∃ m', row.moves.lookup terminal = some m' := by
      intro d he hd
      refine hadd.added terminal ?_
      rw [List.nil_append, mem_sortedNames]
      exact List.mem_map.2 ⟨⟨d, terminal⟩, (mem_completed hk).2 ⟨he, hd⟩, rfl⟩
    cases hc with
    | shift ht => exact hadd.shifts terminal _ ht
    | reduce he hd _ => exact hdone he hd
    | accept he hd _ => exact hdone he hd
  · rw [hg, lookup_gotos, lookup_getD_moves]

/-- Where candidates are unique, complete rules can be added. -/
theorem exists_row (hk : a.states[state]? = some k)
    (hdet : ∀ terminal m m', a.Candidate state terminal m → a.Candidate state terminal m' → m = m') :
    ∃ row, a.row a.sets (a.facts a.sets) strict state k = .ok row := by
  have hfold : ∃ moves, (sortedNames ((a.completed a.sets (a.facts a.sets) state k).map (·.follower))).foldlM
      (fun moves terminal => addReduction a.rules a.isRoot strict state moves terminal (a.reductions state k terminal))
      (a.shifts state) = .ok moves := by
    refine exists_foldlM (I := fun moves => ∃ done, a.Adding state done moves) _ _ ⟨[], adding_shifts⟩ ?_ ?_
    · rintro terminal ht moves ⟨done, hI⟩
      obtain ⟨⟨d, f⟩, hd, rfl⟩ := List.mem_map.1 (mem_sortedNames.1 ht)
      obtain ⟨he, hc⟩ := (mem_completed hk).1 hd
      by_cases hroot : (a.reductions state k f).any a.isRoot = true
      · exact ⟨_, by rw [addReduction, if_pos hroot]⟩
      · -- the only rule to reduce is the one that is complete, and nothing is shifted
        have hnr : ∀ i ∈ a.reductions state k f, a.isRoot i = false := by simpa using hroot
        have hmem := (mem_reductions hk).2 ⟨d, he, hc, rfl⟩
        have hred := Candidate.reduce he hc (hnr _ hmem)
        have hone : a.reductions state k f = [d.rule] := by
          refine eq_singleton_of_nodup (nodup_fresh _ _) hmem fun i hi => ?_
          obtain ⟨d', he', hc', rfl⟩ := (mem_reductions hk).1 hi
          exact Move.reduce.inj (hdet _ _ _ (.reduce he' hc' (hnr _ hi)) hred)
        obtain ⟨r, hr, -⟩ := DottedRule.isComplete_iff.1 hc
        have hchosen : chooseReduction a.rules state f (a.reductions state k f) = .ok (d.rule, r) := by
          rw [hone, chooseReduction_singleton hr]
        rcases addReduction_of_chosen strict moves hroot hchosen with ⟨target, hs, -⟩ | ⟨-, heq⟩
        · have hshift := hdet _ _ _ (hI.sound _ _ hs) hred
          cases hshift
        · exact ⟨_, heq⟩
    · rintro terminal - moves moves' ⟨done, hI⟩ hm
      exact ⟨_, hI.step hk hm⟩
  obtain ⟨moves, hm⟩ := hfold
  exact ⟨⟨moves, _⟩, row_eq_ok_iff.2 ⟨hm, rfl⟩⟩

end Automaton

/-! ## Listing candidates -/

namespace Automaton

/-- What a state may do before a terminal. -/
def candidates (a : Automaton) (state : Nat) (terminal : String) : List Move :=
  match a.states[state]? with
  | none => []
  | some k => ((a.target? state (.terminal terminal)).map Move.shift).toList ++
      (a.reductions state k terminal).map fun i => if a.isRoot i then .accept else .reduce i

/-- The terminals before which a state may do anything. -/
def terminals (a : Automaton) (state : Nat) : List String :=
  match a.states[state]? with
  | none => []
  | some k => (a.shifts state).map (·.1) ++ (a.completed a.sets (a.facts a.sets) state k).map (·.follower)

variable {rules : List Rule} {start : List String} {state : Nat} {terminal : String} {m : Move}

theorem Candidate.exists_state (h : (ofRules rules start).Candidate state terminal m) :
    ∃ k, (ofRules rules start).states[state]? = some k := by
  cases h with
  | shift h =>
    obtain ⟨k, hk, -⟩ := target?_eq_some_iff.1 h
    exact ⟨k, hk⟩
  | reduce h _ _ =>
    obtain ⟨k, hk, -⟩ := h
    exact ⟨k, hk⟩
  | accept h _ _ =>
    obtain ⟨k, hk, -⟩ := h
    exact ⟨k, hk⟩

theorem mem_candidates : m ∈ (ofRules rules start).candidates state terminal ↔
    (ofRules rules start).Candidate state terminal m := by
  unfold candidates
  split
  · rename_i hn
    simp only [List.not_mem_nil, false_iff]
    intro h
    obtain ⟨k, hk⟩ := h.exists_state
    cases hk.symm.trans hn
  · rename_i k hk
    simp only [List.mem_append, Option.mem_toList, Option.map_eq_some_iff, List.mem_map, mem_reductions hk]
    constructor
    · rintro (⟨j, hj, rfl⟩ | ⟨i, ⟨d, he, hd, rfl⟩, rfl⟩)
      · exact .shift hj
      · split
        · rename_i hr
          exact .accept he hd hr
        · rename_i hr
          exact .reduce he hd (by simpa using hr)
    · rintro (h | ⟨he, hd, hr⟩ | ⟨he, hd, hr⟩)
      · exact .inl ⟨_, h, rfl⟩
      · exact .inr ⟨_, ⟨_, he, hd, rfl⟩, by rw [hr]; rfl⟩
      · exact .inr ⟨_, ⟨_, he, hd, rfl⟩, by rw [hr]; rfl⟩

theorem Candidate.mem_terminals (h : (ofRules rules start).Candidate state terminal m) :
    terminal ∈ (ofRules rules start).terminals state := by
  obtain ⟨k, hk⟩ := h.exists_state
  rw [terminals, hk]
  refine List.mem_append.2 ?_
  cases h with
  | @shift target h =>
    refine .inl ?_
    have hl : ((ofRules rules start).shifts state).lookup terminal =
      some (.shift target) := by rw [lookup_shifts_eq, h]; rfl
    obtain ⟨l1, l2, he, -⟩ := List.lookup_eq_some_iff.1 hl
    rw [he]
    simp
  | reduce he hd _ => exact .inr (List.mem_map.2 ⟨_, (mem_completed hk).2 ⟨he, hd⟩, rfl⟩)
  | accept he hd _ => exact .inr (List.mem_map.2 ⟨_, (mem_completed hk).2 ⟨he, hd⟩, rfl⟩)

/-- Whether no state has two candidates before one terminal, told from the listed ones. -/
def settled (a : Automaton) : Bool :=
  (List.range a.states.length).all fun state => (a.terminals state).all fun terminal =>
    (a.candidates state terminal).all fun m => (a.candidates state terminal).all fun m' => m == m'

theorem settled_iff : (ofRules rules start).settled = true ↔ Deterministic rules start := by
  simp only [settled, List.all_eq_true, beq_iff_eq, mem_candidates]
  refine ⟨fun h state terminal m m' hm hm' => ?_, fun h state _ terminal _ m hm m' hm' => h state terminal m m' hm hm'⟩
  obtain ⟨k, hk⟩ := hm.exists_state
  exact h state (List.mem_range.2 (List.getElem?_eq_some_iff.1 hk).1) terminal hm.mem_terminals m hm m' hm'

end Automaton

instance (rules : List Rule) (start : List String) : Decidable (Deterministic rules start) :=
  decidable_of_iff _ Automaton.settled_iff

/-! ## Tables -/

theorem build_eq_ok_iff {rules : List Rule} {start : List String} {strict : Bool} {t : Table} :
    Table.build rules start strict = .ok t ↔ ∃ rows,
      (Automaton.ofRules rules start).states.zipIdx.mapM (fun (k, state) =>
        (Automaton.ofRules rules start).row (Automaton.ofRules rules start).sets
          ((Automaton.ofRules rules start).facts (Automaton.ofRules rules start).sets) strict state k) = .ok rows ∧
      t = { rules := (Automaton.ofRules rules start).rules, rows
            starts := (Automaton.ofRules rules start).roots.reverse.map fun (name, state, _) => (name, state) } := by
  have heq : Table.build rules start strict =
      ((Automaton.ofRules rules start).states.zipIdx.mapM (fun (k, state) =>
        (Automaton.ofRules rules start).row (Automaton.ofRules rules start).sets
          ((Automaton.ofRules rules start).facts (Automaton.ofRules rules start).sets) strict state k) >>= fun rows =>
        pure { rules := (Automaton.ofRules rules start).rules, rows
               starts := (Automaton.ofRules rules start).roots.reverse.map fun (name, state, _) =>
                 (name, state) }) := rfl
  rw [heq]
  cases (Automaton.ofRules rules start).states.zipIdx.mapM (fun (k, state) =>
      (Automaton.ofRules rules start).row (Automaton.ofRules rules start).sets
        ((Automaton.ofRules rules start).facts (Automaton.ofRules rules start).sets) strict state k) with
  | error e => simp [bind, Except.bind]
  | ok rows => simp [bind, Except.bind, pure, Except.pure, eq_comm]

theorem lookup_starts (name : String) : ∀ roots : List (String × Nat × Nat),
    (roots.map fun (n, state, _) => (n, state)).lookup name = (roots.find? (·.1 == name)).map (·.2.1)
  | [] => rfl
  | (n, state, root) :: roots => by
    rw [List.map_cons, List.lookup_cons, List.find?_cons, lookup_starts name roots]
    by_cases h : name = n
    · simp [h]
    · simp [beq_eq_false_iff_ne.2 h, beq_eq_false_iff_ne.2 (Ne.symm h)]

/-- A table that was built has the moves of the automaton. -/
theorem Table.realizes_of_build {rules : List Rule} {start : List String} {strict : Bool} {t : Table}
    (h : Table.build rules start strict = .ok t) : t.Realizes (Automaton.ofRules rules start) := by
  obtain ⟨rows, hrows, rfl⟩ := build_eq_ok_iff.1 h
  obtain ⟨hlen, hget⟩ := mapM_ok hrows
  rw [List.length_zipIdx] at hlen
  -- a state has a row that was built for it, or there is neither
  have hrow : ∀ state, (∃ k row, (Automaton.ofRules rules start).states[state]? = some k ∧ rows[state]? = some row ∧
      (Automaton.ofRules rules start).row (Automaton.ofRules rules start).sets
        ((Automaton.ofRules rules start).facts (Automaton.ofRules rules start).sets) strict state k = .ok row) ∨
      ((Automaton.ofRules rules start).states[state]? = none ∧ rows[state]? = none) := by
    intro state
    cases hk : (Automaton.ofRules rules start).states[state]? with
    | none =>
      refine .inr ⟨rfl, List.getElem?_eq_none ?_⟩
      rw [hlen]
      exact List.getElem?_eq_none_iff.1 hk
    | some k =>
      obtain ⟨row, hr, hi⟩ := hget state (k, state) (by simp [List.getElem?_zipIdx, hk])
      exact .inl ⟨k, row, rfl, hi, hr⟩
  have hnone : ∀ state s, (Automaton.ofRules rules start).states[state]? = none →
      (Automaton.ofRules rules start).target? state s = none := by
    intro state s hk
    rw [Option.eq_none_iff_forall_ne_some]
    intro target ht
    obtain ⟨k, hk', -⟩ := Automaton.target?_eq_some_iff.1 ht
    rw [hk] at hk'
    cases hk'
  refine ⟨rfl, hlen, fun state terminal m hm => ?_, fun state terminal m hc => ?_, fun state n => ?_, fun name => ?_⟩
  · rcases hrow state with ⟨k, row, hk, hr, hok⟩ | ⟨-, hr⟩
    · rw [Table.move?, hr] at hm
      exact (Automaton.row_spec hk hok).1 terminal m hm
    · rw [Table.move?, hr] at hm
      cases hm
  · rcases hrow state with ⟨k, row, hk, hr, hok⟩ | ⟨hk, -⟩
    · rw [Table.move?, hr]
      exact (Automaton.row_spec hk hok).2.1 terminal m hc
    · cases hc with
      | shift ht => rw [hnone state _ hk] at ht; cases ht
      | reduce he _ _ => obtain ⟨k, hk', -⟩ := he; rw [hk] at hk'; cases hk'
      | accept he _ _ => obtain ⟨k, hk', -⟩ := he; rw [hk] at hk'; cases hk'
  · rcases hrow state with ⟨k, row, hk, hr, hok⟩ | ⟨hk, hr⟩
    · rw [Table.goto?, hr]
      exact (Automaton.row_spec hk hok).2.2 n
    · rw [Table.goto?, hr, hnone state _ hk]
      rfl
  · exact lookup_starts name _

/-- Where candidates are unique, the table is built. -/
theorem Table.exists_build {rules : List Rule} {start : List String} (h : Deterministic rules start) (strict : Bool) :
    ∃ t, Table.build rules start strict = .ok t := by
  obtain ⟨rows, hrows⟩ := exists_mapM (f := fun (k, state) =>
    (Automaton.ofRules rules start).row (Automaton.ofRules rules start).sets
      ((Automaton.ofRules rules start).facts (Automaton.ofRules rules start).sets) strict state k)
    (l := (Automaton.ofRules rules start).states.zipIdx) fun ⟨k, state⟩ hk =>
      Automaton.exists_row (List.mem_zipIdx_iff_getElem?.1 hk) (h state)
  exact ⟨_, build_eq_ok_iff.2 ⟨rows, hrows, rfl⟩⟩

/-- Where candidates are unique, the moves of the table are exactly the candidates. -/
theorem Table.Realizes.move?_iff {rules : List Rule} {start : List String} {t : Table}
    (h : t.Realizes (Automaton.ofRules rules start)) (hd : Deterministic rules start) {state : Nat}
    {terminal : String} {m : Move} :
    t.move? state terminal = some m ↔ (Automaton.ofRules rules start).Candidate state terminal m := by
  refine ⟨h.sound state terminal m, fun hc => ?_⟩
  obtain ⟨m', hm'⟩ := h.total state terminal m hc
  rw [hm', hd _ _ _ _ (h.sound _ _ _ hm') hc]

end GrammarKit.LR
