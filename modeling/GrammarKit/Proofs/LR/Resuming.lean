/-
Parses that come to an end. A round of a parse feeds a token, or asks the program about a failure and goes on. In either
case the lexer has gone over some characters, and over those that the failure is about, whether the lexer met it or a
token was refused by the machine. So there are no more rounds than characters, no failure is about a place that an
earlier one was about, and a parse does not stop where the program says to go on.

This takes that a token can be fed at all: a table of a cyclic grammar may reduce before a token forever.
-/
import GrammarKit.Proofs.LR.Settling
import GrammarKit.Proofs.LR.Stepwise
import GrammarKit.Proofs.Scan.Meeting

namespace GrammarKit

namespace LR

/-! ## Rounds to the end -/

section Concludes

variable {σ : Type} [TokenSource σ]

theorem Recovery.asked_of_ask {recovery : Option Recovery} {asked asked' : List ParseFailure} {f : ParseFailure}
    {answer : Bool} (h : Recovery.ask recovery asked f = (answer, asked')) :
    asked' = asked ++ [f] ∨ answer = false ∧ asked' = asked := by
  cases recovery with
  | none => exact .inr ⟨(congrArg Prod.fst h).symm, (congrArg Prod.snd h).symm⟩
  | some r => exact .inl (congrArg Prod.snd h).symm

theorem Recovery.asked_of_ask_true {recovery : Option Recovery} {asked asked' : List ParseFailure} {f : ParseFailure}
    (h : Recovery.ask recovery asked f = (true, asked')) : asked' = asked ++ [f] :=
  (asked_of_ask h).resolve_right fun h => nomatch h.1

/-- A round feeds one token or asks once. -/
theorem Round.count {p : Parser} {recovery : Option Recovery} {q q' : Progress σ} {us : List Token}
    (h : Round p recovery q us q') : us.length + q'.asked.length = q.asked.length + 1 := by
  cases h with
  | fed _ _ => exact Nat.add_comm ..
  | refused _ _ ha | skipped _ ha _ =>
    rw [Recovery.asked_of_ask_true ha, List.length_append]
    exact Nat.zero_add _

/-- Every failure at this point is one that the program may be asked about, and the source can go on behind it. -/
structure Progress.Unblocked (p : Parser) (q : Progress σ) : Prop where
  pull : ∀ {f rest}, TokenSource.pull q.source (some q.machine.current) = (.error f, rest) →
    ∃ g rest', f = .parse g ∧ skipFailed rest g = some rest'
  feed : ∀ {t f rest m'}, TokenSource.pull q.source (some q.machine.current) = (.ok (some t), rest) →
    q.machine.feed p t false = (.error f, m') → ∃ g, f = .parse g

/-- What a parse comes to where it stops: the source has ended, or the program does not say to go on. -/
inductive Concludes (p : Parser) (recovery : Option Recovery) (q : Progress σ) : Parsed → Prop
  | finished {rest : σ} (hp : TokenSource.pull q.source (some q.machine.current) = (.ok none, rest)) :
    Concludes p recovery q ⟨(q.machine.finish p).1, q.asked⟩
  | refused {rest : σ} {t : Token} {f : ParseFailure} {m' : Machine} {asked : List ParseFailure}
    (hp : TokenSource.pull q.source (some q.machine.current) = (.ok (some t), rest))
    (hf : q.machine.feed p t false = (.error (.parse f), m')) (ha : Recovery.ask recovery q.asked f = (false, asked)) :
    Concludes p recovery q ⟨.error (.parse f), asked⟩
  | failed {rest : σ} {f : ParseFailure} {asked : List ParseFailure}
    (hp : TokenSource.pull q.source (some q.machine.current) = (.error (.parse f), rest))
    (ha : Recovery.ask recovery q.asked f = (false, asked)) : Concludes p recovery q ⟨.error (.parse f), asked⟩

/-- Where a parse is nowhere blocked, it comes to its end by rounds. -/
theorem Machine.run_concludes (p : Parser) (recovery : Option Recovery) (m : Machine) (source : σ)
    (asked : List ParseFailure) : (∀ ts q, Rounds p recovery ⟨m, source, asked⟩ ts q → q.Unblocked p) →
      ∃ ts q, Rounds p recovery ⟨m, source, asked⟩ ts q ∧ Concludes p recovery q (m.run p recovery source asked) := by
  fun_induction Machine.run p recovery m source asked with
  | case1 m source asked rest hp => exact fun _ => ⟨[], _, .nil, .finished hp⟩
  | case2 m source asked t rest hp _ value m' hf ih =>
    intro hgo
    obtain ⟨ts, q, hrounds, hend⟩ := ih fun ts q hr => hgo _ q (.cons (.fed hp hf) hr)
    exact ⟨_, q, .cons (.fed hp hf) hrounds, hend⟩
  | case3 m source asked t rest hp _ f m' hf asked' ha ih =>
    intro hgo
    obtain ⟨ts, q, hrounds, hend⟩ := ih fun ts q hr => hgo _ q (.cons (.refused hp hf ha) hr)
    exact ⟨_, q, .cons (.refused hp hf ha) hrounds, hend⟩
  | case4 m source asked t rest hp _ f m' hf asked' ha => exact fun _ => ⟨[], _, .nil, .refused hp hf ha⟩
  | case5 m source asked t rest hp _ f m' hne hf =>
    intro hgo
    obtain ⟨g, rfl⟩ := (hgo _ _ .nil).feed hp hf
    exact absurd rfl (hne g)
  | case6 m source asked f rest hp _ asked' ha rest' hs _ ih =>
    intro hgo
    obtain ⟨ts, q, hrounds, hend⟩ := ih fun ts q hr => hgo _ q (.cons (.skipped hp ha hs) hr)
    exact ⟨_, q, .cons (.skipped hp ha hs) hrounds, hend⟩
  | case7 m source asked f rest hp _ asked' ha hs =>
    intro hgo
    obtain ⟨g, rest', hg, hs'⟩ := (hgo _ _ .nil).pull hp
    cases hg
    cases hs.symm.trans hs'
  | case8 m source asked f rest hp _ asked' ha => exact fun _ => ⟨[], _, .nil, .failed hp ha⟩
  | case9 m source asked f rest hne hp =>
    intro hgo
    obtain ⟨g, -, rfl, -⟩ := (hgo _ _ .nil).pull hp
    exact absurd rfl (hne g)

end Concludes

/-! ## Machines that settle -/

/-- Whatever a machine was fed since it began the start symbol, the reductions before a token come to an end. -/
def Parser.Settles (p : Parser) (name : String) : Prop :=
  ∀ (m : Machine) (terminal : String), m.Reached p name → ∃ n m1, m.Runs p terminal n [] m1 ∧ m1.AtRest p terminal

/-- Where no nonterminal that the start symbol leads to is restless, a parser settles. -/
theorem Parser.settles_of_calm {c : ParserConfig} {strict : Bool} {p : Parser} {name : String}
    (hp : Parser.ofConfig c strict = .ok p)
    (hcalm : ∀ n, LeadsTo p.table.rules (rootRule name).origin n → ¬ Restless p.table.rules n) : p.Settles name := by
  intro m terminal hm
  have ht := Table.realizes_of_build (Parser.ofConfig_eq_ok hp).1
  obtain ⟨first, hf, ds, ts, h⟩ := hm.stacked hp
  rw [ht.rules] at hcalm
  obtain ⟨limit, hlimit⟩ := Stacked.exists_sizeAll_le hf hcalm ts.length
  rcases h.runs_or_endless ht hf (.ofText terminal "") false (limit + 1) with ⟨n, m1, hr, hans⟩ | ⟨m1, hr, -⟩
  · exact ⟨n, m1, hr, hans.atRest⟩
  · -- trees on the stack do not become as large as that
    obtain ⟨ds1, h1, hsize⟩ := h.runs ht hf hr
    have := hlimit h1 (by rw [List.append_nil])
    omega

section Settles

variable {c : ParserConfig} {strict : Bool} {p : Parser} {name : String} (hp : Parser.ofConfig c strict = .ok p)
  (hsettles : p.Settles name)
include hp hsettles

/-- Where reductions come to an end, a machine fails only because it refuses a token. -/
theorem Machine.Reached.parse_of_feed {m m' : Machine} (hm : m.Reached p name) {t : Token} {atEnd : Bool} {f : Failure}
    (hf : m.feed p t atEnd = (.error f, m')) : ∃ g, f = .parse g := by
  have ht := Table.realizes_of_build (Parser.ofConfig_eq_ok hp).1
  obtain ⟨first, hfirst, ds, ts, h⟩ := hm.stacked hp
  rcases h.feed_cases ht hfirst t atEnd with ⟨n, m1, -, hans⟩ | ⟨hno, -⟩
  · rw [hf] at hans
    cases hans with
    | refused _ => exact ⟨_, rfl⟩
  · obtain ⟨n, m1, hr, hrest⟩ := hsettles m t.kind hm
    exact absurd hrest (hno n m1 hr)

theorem Machine.Reached.parse_of_finish {m : Machine} (hm : m.Reached p name) {f : Failure}
    (hf : (m.finish p).1 = .error f) : ∃ g, f = .parse g := by
  unfold Machine.finish at hf
  split at hf
  · cases hf
  · cases hf
    exact ⟨_, rfl⟩
  · rename_i f' m' hfeed
    cases hf
    exact hm.parse_of_feed hp hsettles hfeed

end Settles

/-- A machine that refuses a token says so of this token. -/
theorem Machine.eq_atToken_of_feedWithin {p : Parser} {t : Token} {f : ParseFailure} : ∀ {fuel : Nat} {m m' : Machine},
    m.feedWithin p t false fuel = (.error (.parse f), m') → ∃ names, f = .atToken t names
  | 0, _, _, h => by cases h
  | fuel + 1, m, m', h => by
    rw [feedWithin] at h
    split at h
    · cases h
    · exact eq_atToken_of_feedWithin h
    · cases h
    · cases h
      exact ⟨_, rfl⟩
    · cases h

/-- The machine after a round was fed what the machine before it was fed, and maybe one token more. -/
theorem Round.reached {σ : Type} [TokenSource σ] {p : Parser} {recovery : Option Recovery} {q q' : Progress σ}
    {us : List Token} {name : String} (h : Round p recovery q us q') (hm : q.machine.Reached p name) :
    q'.machine.Reached p name := by
  cases h with
  | @fed m m' _ _ _ t value hp hf =>
    have := hm.feed t false
    rwa [hf] at this
  | @refused m m' _ _ _ _ t f hp hf ha =>
    have := hm.feed t false
    rwa [hf] at this
  | skipped hp ha hs => exact hm

theorem Rounds.reached {σ : Type} [TokenSource σ] {p : Parser} {recovery : Option Recovery} {q q' : Progress σ}
    {us : List Token} {name : String} (h : Rounds p recovery q us q') (hm : q.machine.Reached p name) :
    q'.machine.Reached p name := by
  induction h with
  | nil => exact hm
  | cons h _ ih => exact ih (h.reached hm)

/-! ## Places of failures -/

/-- Failures about characters between two places of a text, each about a later one than the failure before. -/
def Ascending (text : List Char) (start stop : Nat) (fs : List ParseFailure) : Prop :=
  ∃ places : List Nat, fs.map (·.offset?) = places.map some ∧ places.Pairwise (· < ·) ∧
    ∀ x ∈ places, start ≤ x ∧ x < stop ∧ ∃ position, Text.positionAt? text x = some position

namespace Ascending

variable {text : List Char} {start stop stop' : Nat} {fs : List ParseFailure}

theorem nil (text : List Char) (start stop : Nat) : Ascending text start stop [] := ⟨[], rfl, .nil, by simp⟩

theorem mono (h : Ascending text start stop fs) (hle : stop ≤ stop') : Ascending text start stop' fs := by
  obtain ⟨places, hplaces, hpairwise, hall⟩ := h
  refine ⟨places, hplaces, hpairwise, fun x hx => ?_⟩
  obtain ⟨hstart, hstop, hposition⟩ := hall x hx
  exact ⟨hstart, hstop.trans_le hle, hposition⟩

theorem snoc (h : Ascending text start stop fs) {f : ParseFailure} {x : Nat} {position : Position}
    (hf : f.offset? = some x) (hposition : Text.positionAt? text x = some position) (hstart : start ≤ x)
    (hle : stop ≤ x) (hlt : x < stop') : Ascending text start stop' (fs ++ [f]) := by
  obtain ⟨places, hplaces, hpairwise, hall⟩ := h
  refine ⟨places ++ [x], by simp [hplaces, hf], ?_, ?_⟩
  · refine List.pairwise_append.2 ⟨hpairwise, List.pairwise_singleton .., fun y hy z hz => ?_⟩
    rw [List.mem_singleton.1 hz]
    exact (hall y hy).2.1.trans_le hle
  · intro y hy
    rcases List.mem_append.1 hy with hy | hy
    · obtain ⟨hy, hstop, hposition⟩ := hall y hy
      exact ⟨hy, (hstop.trans_le hle).trans hlt, hposition⟩
    · rw [List.mem_singleton.1 hy]
      exact ⟨hstart, hlt, position, hposition⟩

end Ascending

/-! ## Parses of a window -/

/-- Where the lexer of a parse stands. -/
def Progress.position (q : Progress (Hooked Scanner)) : Position := q.source.inner.cursor.position

/-- The lexer of a parse stands on a character boundary between two places of a text. -/
def Progress.StandsIn (text : List Char) (start stop : Nat) (q : Progress (Hooked Scanner)) : Prop :=
  start ≤ q.position.offset ∧ q.position.offset ≤ stop ∧ Text.positionAt? text q.position.offset = some q.position

/-- A parse has come to some place of a window: `passed` are the characters of the window that are behind the lexer,
and `fed` are the tokens that were fed. -/
structure Progress.Past (l : Lexer) (w : Window) (fed : List Token) (passed : List Char)
    (q : Progress (Hooked Scanner)) : Prop where
  exists_cursor : ∃ cursor, q.source = l.streamAt cursor ∧ cursor.Behind w (w.before ++ passed)
  length_le : fed.length + q.asked.length ≤ passed.length
  ascending : Ascending w.text w.start (w.start + Text.bytes passed) q.asked

/-- A round goes over some characters. If it asks about a failure, this is about one of them. -/
structure Progress.Advances (q q' : Progress (Hooked Scanner)) : Prop where
  lt : q.position.offset < q'.position.offset
  asked : q'.asked = q.asked ∨ ∃ f x, q'.asked = q.asked ++ [f] ∧ f.offset? = some x ∧ q.position.offset ≤ x ∧
    x < q'.position.offset

section Window

variable {c : LexerConfig} {l : Lexer} {w : Window} {fed us : List Token} {passed : List Char}
  {q q' : Progress (Hooked Scanner)}

theorem Progress.Past.start (m : Machine) (hl : l.MadeFrom c) (w : Window) :
    Progress.Past l w [] [] ⟨m, l.stream none w, []⟩ where
  exists_cursor := ⟨_, Lexer.stream_eq hl w, by simpa using .ofWindow w⟩
  length_le := Nat.le_refl _
  ascending := .nil ..

theorem Progress.Past.position_eq (hq : q.Past l w fed passed) : q.position.offset = w.start + Text.bytes passed ∧
    Text.positionAt? w.text q.position.offset = some q.position := by
  obtain ⟨cursor, hsource, hb⟩ := hq.exists_cursor
  have hposition : q.position = cursor.position := by rw [Progress.position, hsource]; rfl
  rw [hposition]
  exact ⟨hb.offset_eq.trans (Text.bytes_append ..), hb.positionAt?_eq⟩

/-- What is behind the lexer is a part of the window. -/
theorem Progress.Past.exists_inside (hq : q.Past l w fed passed) : ∃ ahead, w.inside = passed ++ ahead := by
  obtain ⟨cursor, -, hb⟩ := hq.exists_cursor
  exact ⟨_, hb.inside_eq⟩

theorem Progress.Past.bytes_le (hq : q.Past l w fed passed) : w.start + Text.bytes passed ≤ w.stop := by
  obtain ⟨ahead, hinside⟩ := hq.exists_inside
  rw [Window.stop, hinside, Text.bytes_append, Window.start]
  omega

theorem Progress.Past.length_le_inside (hq : q.Past l w fed passed) :
    fed.length + q.asked.length ≤ w.inside.length := by
  obtain ⟨ahead, hinside⟩ := hq.exists_inside
  have := hq.length_le
  rw [hinside, List.length_append]
  omega

theorem Progress.Past.standsIn (hq : q.Past l w fed passed) : q.StandsIn w.text w.start w.stop := by
  obtain ⟨hoffset, hposition⟩ := hq.position_eq
  have := hq.bytes_le
  exact ⟨by omega, by omega, hposition⟩

/-- The lexer goes over some characters and meets something behind them. -/
theorem Progress.Past.pull (hcallbacks : c.callbacks = []) (hl : l.MadeFrom c) (hq : q.Past l w fed passed)
    {state : Option Nat} {result : Outcome (Option Token)} {rest : Hooked Scanner}
    (hp : TokenSource.pull q.source state = (result, rest)) : ∃ stop skipped left,
      stop.Behind w (w.before ++ (passed ++ skipped)) ∧ Lexer.Meets stop result left ∧ rest = l.streamAt left := by
  obtain ⟨cursor, hsource, hb⟩ := hq.exists_cursor
  rw [hsource, Lexer.pull_streamAt] at hp
  cases hp
  obtain ⟨stop, skipped, hstop, hmeets⟩ := Lexer.pull_meets hb hcallbacks hl state
  exact ⟨stop, skipped, _, by rwa [← List.append_assoc], hmeets, rfl⟩

/-- The lexer goes on behind the characters that it has met, with one token more that was fed or one failure more that
was asked about. -/
theorem Progress.Past.next (hq : q.Past l w fed passed) {fed' : List Token} {stop cursor : Cursor}
    {skipped chars : List Char} (hstop : stop.Behind w (w.before ++ (passed ++ skipped))) (hne : chars ≠ [])
    (hsource : q'.source = l.streamAt cursor) (hb : cursor.Behind w (w.before ++ (passed ++ skipped) ++ chars))
    (hnext : fed'.length = fed.length + 1 ∧ q'.asked = q.asked ∨
      fed' = fed ∧ ∃ f, q'.asked = q.asked ++ [f] ∧ f.offset? = some stop.offset) :
    q'.Past l w fed' (passed ++ skipped ++ chars) ∧ q.Advances q' := by
  have hlength := List.length_pos_iff.2 hne
  have hpos := Text.bytes_pos hne
  have hstart := hq.position_eq.1
  have hstopped := hstop.offset_eq
  have hposition : q'.position.offset = cursor.offset := by rw [Progress.position, hsource]; rfl
  have hleft := hb.offset_eq
  simp only [Text.bytes_append] at hstopped hleft
  obtain ⟨-, hcount, hascending⟩ := hq
  unfold Window.start at hstart hascending
  rw [List.append_assoc w.before] at hb
  rcases hnext with ⟨hfed, hasked⟩ | ⟨rfl, f, hasked, hf⟩
  · refine ⟨⟨⟨cursor, hsource, hb⟩, ?_, ?_⟩, ⟨by omega, .inl hasked⟩⟩
    · simp only [hasked, List.length_append]
      omega
    · rw [hasked]
      exact hascending.mono (by simp only [Text.bytes_append, Window.start]; omega)
  · refine ⟨⟨⟨cursor, hsource, hb⟩, ?_, ?_⟩, ⟨by omega, .inr ⟨f, _, hasked, hf, by omega, by omega⟩⟩⟩
    · simp only [hasked, List.length_append, List.length_singleton]
      omega
    · rw [hasked]
      exact hascending.snoc hf hstop.positionAt?_eq (by omega) (by omega)
        (by simp only [Text.bytes_append, Window.start]; omega)

variable {p : Parser} {recovery : Option Recovery} (hcallbacks : c.callbacks = []) (hl : l.MadeFrom c)
include hcallbacks hl

/-- After a token that was refused the lexer goes on behind it. -/
theorem Progress.Past.of_refused (hq : q.Past l w fed passed) {t : Token} {rest : Hooked Scanner} {f : ParseFailure}
    {m' : Machine} (hp : TokenSource.pull q.source (some q.machine.current) = (.ok (some t), rest))
    (hf : q.machine.feed p t false = (.error (.parse f), m')) : ∃ passed',
      Progress.Past l w fed passed' ⟨m', rest, q.asked ++ [f]⟩ ∧ q.Advances ⟨m', rest, q.asked ++ [f]⟩ := by
  obtain ⟨stop, skipped, left, hstop, hmeets, rfl⟩ := hq.pull hcallbacks hl hp
  obtain ⟨names, rfl⟩ := Machine.eq_atToken_of_feedWithin hf
  cases hmeets with
  | token hahead hne hspan =>
    have hb := hstop.advance hahead
    have habout : (ParseFailure.atToken t names).About stop _ := .token hspan
    exact ⟨_, hq.next hstop hne rfl ⟨hb.text_eq, hb.position_eq⟩ (.inr ⟨rfl, _, rfl, habout.offset?_eq⟩)⟩

/-- After a failure the lexer can go on, and it goes on behind what the failure is about. -/
theorem Progress.Past.of_failed (hq : q.Past l w fed passed) {f : ParseFailure} {rest : Hooked Scanner}
    (hp : TokenSource.pull q.source (some q.machine.current) = (.error (.parse f), rest)) : ∃ rest',
      skipFailed rest f = some rest' ∧ ∃ passed', Progress.Past l w fed passed' ⟨q.machine, rest', q.asked ++ [f]⟩ ∧
        q.Advances ⟨q.machine, rest', q.asked ++ [f]⟩ := by
  obtain ⟨stop, skipped, left, hstop, hmeets, rfl⟩ := hq.pull hcallbacks hl hp
  cases hmeets with
  | failed hahead hne habout =>
    exact ⟨_, l.skipFailed_streamAt hahead hne habout, _,
      hq.next hstop hne rfl (hstop.advance hahead) (.inr ⟨rfl, _, rfl, habout.offset?_eq⟩)⟩

/-- A round goes on in the window. -/
theorem Round.past (h : Round p recovery q us q') (hq : q.Past l w fed passed) :
    ∃ passed', q'.Past l w (fed ++ us) passed' ∧ q.Advances q' := by
  cases h with
  | fed hp hf =>
    obtain ⟨stop, skipped, left, hstop, hmeets, rfl⟩ := hq.pull hcallbacks hl hp
    cases hmeets with
    | token hahead hne hspan =>
      have hb := hstop.advance hahead
      exact ⟨_, hq.next hstop hne rfl ⟨hb.text_eq, hb.position_eq⟩ (.inl ⟨by simp, rfl⟩)⟩
  | refused hp hf ha =>
    obtain rfl := Recovery.asked_of_ask_true ha
    rw [List.append_nil]
    exact hq.of_refused hcallbacks hl hp hf
  | skipped hp ha hs =>
    obtain rfl := Recovery.asked_of_ask_true ha
    obtain ⟨rest', hskip, hpast⟩ := hq.of_failed hcallbacks hl hp
    obtain rfl := Option.some.inj (hskip.symm.trans hs)
    rwa [List.append_nil]

theorem Rounds.past (h : Rounds p recovery q us q') : ∀ {fed : List Token} {passed : List Char},
    q.Past l w fed passed → ∃ passed', q'.Past l w (fed ++ us) passed' := by
  induction h with
  | nil =>
    intro fed passed hq
    exact ⟨passed, by rwa [List.append_nil]⟩
  | cons h _ ih =>
    intro fed passed hq
    obtain ⟨passed1, hq1, -⟩ := h.past hcallbacks hl hq
    obtain ⟨passed', hq'⟩ := ih hq1
    exact ⟨passed', by rwa [← List.append_assoc]⟩

/-- Where its machine settles, a parse of a window is not blocked. -/
theorem Progress.Past.unblocked {parsing : ParserConfig} {strict : Bool} {name : String}
    (hp : Parser.ofConfig parsing strict = .ok p) (hsettles : p.Settles name) (hm : q.machine.Reached p name)
    (hq : q.Past l w fed passed) : q.Unblocked p where
  pull {f rest} hpull := by
    obtain ⟨g, rfl⟩ : ∃ g, f = .parse g := by
      obtain ⟨stop, skipped, left, -, hmeets, -⟩ := hq.pull hcallbacks hl hpull
      cases hmeets
      exact ⟨_, rfl⟩
    obtain ⟨rest', hskip, -⟩ := hq.of_failed hcallbacks hl hpull
    exact ⟨g, rest', rfl, hskip⟩
  feed _ hf := hm.parse_of_feed hp hsettles hf

omit hcallbacks hl in
theorem Progress.Past.within (hq : q.Past l w fed passed) :
    Ascending w.text w.start w.stop q.asked ∧ q.asked.length ≤ w.inside.length :=
  ⟨hq.ascending.mono hq.bytes_le, (Nat.le_add_left ..).trans hq.length_le_inside⟩

/-- The failures that a parse has asked about by its end are about different characters of the window. -/
theorem Concludes.within {parsed : Parsed} (h : Concludes p recovery q parsed) (hq : q.Past l w fed passed) :
    Ascending w.text w.start w.stop parsed.asked ∧ parsed.asked.length ≤ w.inside.length := by
  cases h with
  | finished _ => exact hq.within
  | refused hp hf ha =>
    rcases Recovery.asked_of_ask ha with rfl | ⟨-, rfl⟩
    · obtain ⟨passed', hpast, -⟩ := hq.of_refused hcallbacks hl hp hf
      exact hpast.within
    · exact hq.within
  | failed hp ha =>
    rcases Recovery.asked_of_ask ha with rfl | ⟨-, rfl⟩
    · obtain ⟨rest', -, passed', hpast, -⟩ := hq.of_failed hcallbacks hl hp
      exact hpast.within
    · exact hq.within

end Window

end LR

/-! ## Pipelines -/

theorem mem_of_chooseStart {declared : List String} {requested : Option String} {name : String}
    (h : chooseStart declared requested = .ok name) : name ∈ declared := by
  unfold chooseStart at h
  split at h
  · cases h
    exact List.mem_singleton_self _
  · cases h
  · cases h
  · split at h
    · rename_i hmem
      cases h
      exact List.contains_iff_mem.1 hmem
    · cases h

namespace TextPipeline

open LR

variable {choice : LexerChoice} {lexing : LexerConfig} {parsing : ParserConfig} {o : PipelineOptions}
  {p : TextPipeline}

/-- A lexer for a table goes by the terminals of its configuration. -/
theorem exists_lexer_of_lalr (hp : ofConfig .lalr choice lexing parsing o = .ok p)
    (hchoice : choice = .basic ∨ choice = .contextual) :
    ∃ l, p.lexer = some l ∧ l.MadeFrom lexing ∧ p.start = parsing.start := by
  obtain ⟨backend, hbackend, hp⟩ := bind_eq_ok.1 hp
  obtain ⟨lexer, hlexer, hp⟩ := bind_eq_ok.1 hp
  cases hp
  have hbackend : (Parser.ofConfig parsing o.strict).map Backend.lalr = .ok backend := hbackend
  obtain ⟨b, -, rfl⟩ := map_eq_ok.1 hbackend
  rcases hchoice with rfl | rfl
  · have hlexer : (Lexicon.ofConfig lexing).map (some ∘ .basic) = .ok lexer := hlexer
    obtain ⟨x, hx, rfl⟩ := map_eq_ok.1 hlexer
    exact ⟨_, rfl, .basic hx, rfl⟩
  · have hlexer : (ContextualLexer.ofConfig lexing b.table.accepted _).map (some ∘ .contextual) = .ok lexer := hlexer
    obtain ⟨x, hx, rfl⟩ := map_eq_ok.1 hlexer
    exact ⟨_, rfl, .contextual _ _ hx, rfl⟩

/-- A parse by table, with a lexer whose tokens no hook and no callback changes and a machine that settles, comes to
its end, whatever text between byte `a` and byte `b` is parsed and whatever the program says to failures: it goes from
round to round, and stops only where the text has ended or the program does not say to go on. It fails only with a
failure of the parse. After every round the lexer stands further on, on a character boundary between `a` and `b`, and
behind the start of the token or character that the program was asked about in this round. A round feeds one token or
asks once, and there are no more rounds than characters; the program is asked at most once about each character. -/
theorem parse_resumes (hchoice : choice = .basic ∨ choice = .contextual) (hhook : lexing.postLexer = none)
    (hcallbacks : lexing.callbacks = []) (hp : ofConfig .lalr choice lexing parsing o = .ok p) {parser : Parser}
    (hparser : p.backend = .lalr parser) {start : Option String} {name : String}
    (hname : chooseStart p.start start = .ok name) (hsettles : parser.Settles name) {text : List Char} {a b : Nat}
    {w : Window} (hw : Window.cut text a b = .ok w) (recovery : Option Recovery) :
    ∃ m source, Machine.start parser name = .ok m ∧ p.stream w = .ok source ∧
      (∃ ts q, Rounds parser recovery ⟨m, source, []⟩ ts q ∧ Concludes parser recovery q (p.parse w start recovery)) ∧
      (∀ f, (p.parse w start recovery).result = .error f → ∃ g, f = .parse g) ∧
      (∀ ts q, Rounds parser recovery ⟨m, source, []⟩ ts q → ts.length + q.asked.length ≤ w.inside.length ∧
        ∀ us q', Round parser recovery q us q' → us.length + q'.asked.length = q.asked.length + 1 ∧
          q.Advances q' ∧ q'.StandsIn text a b) ∧
      Ascending text a b (p.parse w start recovery).asked ∧
      (p.parse w start recovery).asked.length ≤ w.inside.length := by
  obtain ⟨hpHook, parser', hparser', hconfig⟩ := backend_of_lalr hp
  obtain rfl : parser' = parser := Backend.lalr.inj (hparser'.symm.trans hparser)
  obtain ⟨l, hlexer, hl, hstart⟩ := exists_lexer_of_lalr hp hchoice
  have hstream : p.stream w = .ok (l.stream none w) := by simp only [stream, hlexer, hpHook, hhook]
  have ht := Table.realizes_of_build (Parser.ofConfig_eq_ok hconfig).1
  obtain ⟨first, hfirst⟩ : ∃ i, (Automaton.ofRules parsing.rules parsing.start).start? name = some i :=
    Automaton.exists_start (hstart ▸ mem_of_chooseStart hname)
  have hm : Machine.start parser' name = .ok { states := [first] } := by rw [Machine.start, ht.start, hfirst]
  have hparse : p.parse w start recovery = Machine.run parser' recovery { states := [first] } (l.stream none w) [] := by
    simp only [parse, hname, hparser, hstream, Parser.parse, hm]
  have hvisited : ∀ ts q, Rounds parser' recovery ⟨{ states := [first] }, l.stream none w, []⟩ ts q →
      q.machine.Reached parser' name ∧ ∃ passed, q.Past l w ts passed := fun ts q hr =>
    ⟨hr.reached (.start hm), hr.past hcallbacks hl (.start _ hl w)⟩
  obtain ⟨rfl, rfl, rfl⟩ := Window.cut_eq_ok hw
  obtain ⟨ts, q, hrounds, hends⟩ := Machine.run_concludes parser' recovery { states := [first] } (l.stream none w) []
    fun ts q hr => by
      obtain ⟨hreached, passed, hq⟩ := hvisited ts q hr
      exact hq.unblocked hcallbacks hl hconfig hsettles hreached
  rw [← hparse] at hends
  obtain ⟨hreached, passed, hq⟩ := hvisited ts q hrounds
  refine ⟨_, _, hm, hstream, ⟨ts, q, hrounds, hends⟩, fun f hf => ?_, fun ts q hr => ?_, hends.within hcallbacks hl hq⟩
  · generalize p.parse w start recovery = parsed at hends hf
    cases hends with
    | finished _ => exact hreached.parse_of_finish hconfig hsettles hf
    | refused _ _ _ | failed _ _ => exact ⟨_, (Except.error.inj hf).symm⟩
  · obtain ⟨-, passed, hq⟩ := hvisited ts q hr
    refine ⟨hq.length_le_inside, fun us q' hround => ?_⟩
    obtain ⟨passed', hq', hadvances⟩ := hround.past hcallbacks hl hq
    exact ⟨hround.count, hadvances, hq'.standsIn⟩

/-! ## Sums -/

theorem settles_sums : sumsParser.Settles "sum" := by
  -- only the root stands for a nonterminal alone
  have hrank : ∀ r ∈ sumsTable.rules, ∀ n, r.symbols = [.nonterminal n] →
      (if n = "sum" then 0 else 1) < if r.origin = "sum" then 0 else 1 := by
    simp +decide [sumsTable, sums, Rule.symbols, rootRule]
  exact Parser.settles_of_calm ofConfig_sums fun n _ => not_restless (by decide) hrank n

/-- In the window `+1 x+11` the first plus and the last number are refused, and the letter between them is not known. -/
theorem parse_resumes_sums : ∃ p w,
    ofConfig .lalr .basic spacedSums ⟨sums, {}, ["sum"], false⟩ { strict := true } = .ok p ∧
    p.backend = .lalr sumsParser ∧ sumsParser.Settles "sum" ∧
    Window.cut [' ', '+', '1', ' ', 'x', '+', '1', '1'] 1 8 = .ok w ∧
    Ascending [' ', '+', '1', ' ', 'x', '+', '1', '1'] 1 8 (p.parse w none (some (.upTo 9))).asked ∧
    (p.parse w none (some (.upTo 9))).asked.length ≤ 7 ∧
    (p.parse w none (some (.upTo 9))).asked.map (fun f => (f.refused?.map Token.kind, f.offset?)) =
      [(some "PLUS", some 1), (none, some 4), (some "NUMBER", some 7)] := by
  have hbackend : backendFor .lalr .basic spacedSums ⟨sums, {}, ["sum"], false⟩ { strict := true } =
      .ok (.lalr sumsParser) := by
    rw [backendFor, ofConfig_sums]
    rfl
  have hlexer : lexerFor .lalr .basic spacedSums (.lalr sumsParser) = .ok (some (.basic spacedSumsLexicon)) := by
    rw [lexerFor, Lexicon.ofConfig_spacedSums]
    rfl
  have hp : ofConfig .lalr .basic spacedSums ⟨sums, {}, ["sum"], false⟩ { strict := true } =
      .ok ⟨some (.basic spacedSumsLexicon), none, .lalr sumsParser, ["sum"]⟩ :=
    bind_eq_ok.2 ⟨_, hbackend, bind_eq_ok.2 ⟨_, hlexer, rfl⟩⟩
  have hname : chooseStart ["sum"] none = .ok "sum" := rfl
  have hw : Window.cut [' ', '+', '1', ' ', 'x', '+', '1', '1'] 1 8 =
      .ok ⟨[' '], ['+', '1', ' ', 'x', '+', '1', '1'], []⟩ := rfl
  obtain ⟨m, source, -, -, -, -, -, hascending, hlength⟩ := parse_resumes (.inl rfl) rfl rfl hp rfl hname
    settles_sums hw (some (.upTo 9))
  exact ⟨_, _, hp, rfl, settles_sums, hw, hascending, hlength, by decide +kernel⟩

end TextPipeline

end GrammarKit
