/-
What a lexicon finds in a text. It goes over matches of ignored terminals until it comes to a match of another terminal,
which becomes a token, or to a place where nothing matches, such as the end of the text. The text up to there is cut into
pieces one after the other, and each token has the place of its piece in the whole text, wherever the window on the text
begins.
-/
import GrammarKit.Proofs.Scan.Lexed
import GrammarKit.Proofs.Text.Offsets

namespace GrammarKit

namespace Lexer

/-- A stretch of text: a token of a terminal, a match of an ignored terminal, or text that is skipped on request. -/
inductive Piece where
  | token (terminal : String) (chars : List Char)
  | ignored (terminal : String) (chars : List Char)
  | skipped (chars : List Char)

namespace Piece

def chars : Piece → List Char
  | token _ chars | ignored _ chars | skipped chars => chars

/-- The characters of pieces that follow each other. -/
def text (ps : List Piece) : List Char := ps.flatMap chars

/-- The tokens of pieces that follow each other from a byte offset of a text on. -/
def tokens (text : List Char) : Nat → List Piece → List Token
  | _, [] => []
  | offset, token terminal chars :: ps =>
    .ofText terminal (String.ofList chars) (Text.span? text offset (offset + Text.bytes chars)) ::
      tokens text (offset + Text.bytes chars) ps
  | offset, ignored _ chars :: ps => tokens text (offset + Text.bytes chars) ps
  | offset, skipped chars :: ps => tokens text (offset + Text.bytes chars) ps

@[simp] theorem text_nil : text [] = [] := rfl

@[simp] theorem text_cons (p : Piece) (ps : List Piece) : text (p :: ps) = p.chars ++ text ps := rfl

@[simp] theorem text_append (ps qs : List Piece) : text (ps ++ qs) = text ps ++ text qs := List.flatMap_append

theorem tokens_append (text : List Char) : ∀ (offset : Nat) (ps qs : List Piece),
    tokens text offset (ps ++ qs) = tokens text offset ps ++ tokens text (offset + Text.bytes (Piece.text ps)) qs
  | _, [], _ => rfl
  | offset, p :: ps, qs => by
    have ih := tokens_append text (offset + Text.bytes p.chars) ps qs
    rw [text_cons, Text.bytes_append, ← Nat.add_assoc]
    cases p with
    | token terminal chars =>
      rw [List.cons_append, tokens, tokens, List.cons_append]
      exact congrArg _ ih
    | ignored terminal chars => exact ih
    | skipped chars => exact ih

end Piece

end Lexer

namespace Token

/-- A token has the text that its span cuts out, and its span tells the place of this text. -/
def StandsAt (text : List Char) (t : Token) : Prop := ∃ span before inside after, t.span = some span ∧
  Text.cut3? text span.start span.stop = some (before, inside, after) ∧ t.text? = some (String.ofList inside) ∧
  Text.span? text span.start span.stop = some span

/-- Tokens over stretches of a text that follow each other, none of them empty. -/
structure InOrder (ts : List Token) : Prop where
  exists_span : ∀ t ∈ ts, ∃ a, t.span = some a ∧ a.start < a.stop
  pairwise : ts.Pairwise fun t u => ∀ a ∈ t.span, ∀ b ∈ u.span, a.stop ≤ b.start

theorem InOrder.sublist {ts us : List Token} (h : InOrder ts) (hsub : us.Sublist ts) : InOrder us :=
  ⟨fun t ht => h.exists_span t (hsub.subset ht), h.pairwise.sublist hsub⟩

end Token

namespace Lexer.Piece

variable {text rest : List Char}

/-- Tokens of pieces have the places of their pieces. -/
theorem standsAt_of_mem_tokens {t : Token} : ∀ {ps : List Piece} {before : List Char},
    text = before ++ (Piece.text ps ++ rest) → t ∈ tokens text (Text.bytes before) ps → t.StandsAt text
  | [], _, _, ht => nomatch ht
  | p :: ps, before, htext, ht => by
    rw [text_cons, List.append_assoc] at htext
    have hafter : text = (before ++ p.chars) ++ (Piece.text ps ++ rest) := by rw [htext, List.append_assoc]
    have ih : t ∈ tokens text (Text.bytes before + Text.bytes p.chars) ps → t.StandsAt text := fun ht =>
      standsAt_of_mem_tokens hafter (by rwa [Text.bytes_append])
    cases p with
    | token terminal chars =>
      rcases List.mem_cons.1 ht with rfl | ht
      · obtain ⟨a, hspan, hstart, hstop⟩ := Text.exists_span? htext
        refine ⟨a, before, chars, Piece.text ps ++ rest, hspan, ?_, rfl, ?_⟩
        · rw [hstart, hstop, htext]
          exact Text.cut3?_append ..
        · rw [hstart, hstop]
          exact hspan
      · exact ih ht
    | ignored terminal chars => exact ih ht
    | skipped chars => exact ih ht

/-- Tokens of pieces follow each other. -/
theorem inOrder_tokens : ∀ {ps : List Piece} {before : List Char}, text = before ++ (Piece.text ps ++ rest) →
    (∀ p ∈ ps, p.chars ≠ []) → Token.InOrder (tokens text (Text.bytes before) ps) ∧
      ∀ t ∈ tokens text (Text.bytes before) ps, ∀ a ∈ t.span, Text.bytes before ≤ a.start
  | [], _, _, _ => ⟨⟨by simp [tokens], .nil⟩, by simp [tokens]⟩
  | p :: ps, before, htext, hps => by
    rw [text_cons, List.append_assoc] at htext
    have hafter : text = (before ++ p.chars) ++ (Piece.text ps ++ rest) := by rw [htext, List.append_assoc]
    obtain ⟨hpos, hps⟩ := List.forall_mem_cons.1 hps
    obtain ⟨horder, hbehind⟩ := inOrder_tokens hafter hps
    rw [Text.bytes_append] at horder hbehind
    have hlt : Text.bytes before < Text.bytes before + Text.bytes p.chars := by
      have := Text.bytes_pos hpos
      omega
    have hlater : ∀ t ∈ tokens text (Text.bytes before + Text.bytes p.chars) ps, ∀ a ∈ t.span,
        Text.bytes before ≤ a.start := fun t ht a ha => hlt.le.trans (hbehind t ht a ha)
    cases p with
    | token terminal chars =>
      obtain ⟨a, hspan, hstart, hstop⟩ := Text.exists_span? htext
      have hfirst : ∀ b ∈ (Token.ofText terminal (String.ofList chars)
          (Text.span? text (Text.bytes before) (Text.bytes before + Text.bytes chars))).span, b = a := fun b hb =>
        (Option.some.inj (hspan.symm.trans hb)).symm
      refine ⟨⟨List.forall_mem_cons.2 ⟨⟨a, hspan, ?_⟩, horder.exists_span⟩, ?_⟩, List.forall_mem_cons.2 ⟨?_, hlater⟩⟩
      · rw [hstart, hstop]
        exact hlt
      · refine List.pairwise_cons.2 ⟨fun u hu b hb c hc => ?_, horder.pairwise⟩
        rw [hfirst b hb, hstop]
        exact hbehind u hu c hc
      · intro b hb
        rw [hfirst b hb, hstart]
    | ignored terminal chars => exact ⟨horder, hlater⟩
    | skipped chars => exact ⟨horder, hlater⟩

end Lexer.Piece

/-! ## What is found -/

namespace Lexicon

open Lexer (Piece)

variable {l : Lexicon}

/-- A match takes some characters of the text. -/
theorem match?_eq_some {text : List Char} {name : String} {n : Nat} (h : l.match? text = some (name, n)) :
    0 < n ∧ n ≤ text.length := by
  obtain ⟨hn, e, -, hlength, -⟩ := exists_entry_of_match? h
  exact ⟨hn, e.matcher.length?_le hlength⟩

/-- The pieces that a lexicon goes over in a text, up to a token or to where nothing matches, and the text behind. -/
inductive Finds (l : Lexicon) : List Char → List Piece → List Char → Prop
  | stop {text : List Char} (h : l.match? text = none) : Finds l text [] text
  | token {terminal : String} {chars rest : List Char} (h : l.match? (chars ++ rest) = some (terminal, chars.length))
    (hkept : l.isIgnored terminal = false) : Finds l (chars ++ rest) [.token terminal chars] rest
  | ignored {terminal : String} {chars rest rest' : List Char} {ps : List Piece}
    (h : l.match? (chars ++ rest) = some (terminal, chars.length)) (hignored : l.isIgnored terminal = true)
    (k : Finds l rest ps rest') : Finds l (chars ++ rest) (.ignored terminal chars :: ps) rest'

/-- A piece of a lexicon is a match of a terminal, which is ignored or not. -/
def Matches (l : Lexicon) : Piece → Prop
  | .token terminal chars => l.isIgnored terminal = false ∧
    ∃ rest, l.match? (chars ++ rest) = some (terminal, chars.length)
  | .ignored terminal chars => l.isIgnored terminal = true ∧
    ∃ rest, l.match? (chars ++ rest) = some (terminal, chars.length)
  | .skipped _ => False

theorem Matches.chars_ne_nil {p : Piece} (h : l.Matches p) : p.chars ≠ [] := by
  intro hnil
  cases p with
  | token terminal chars | ignored terminal chars =>
    obtain ⟨-, rest, hm⟩ := h
    have hpos := (match?_eq_some hm).1
    rw [show chars = [] from hnil] at hpos
    simp at hpos
  | skipped chars => exact h

namespace Finds

variable {text rest : List Char} {ps : List Piece}

/-- Nothing is lost. -/
theorem append_eq (h : l.Finds text ps rest) : text = Piece.text ps ++ rest := by
  induction h with
  | stop => rfl
  | token => simp [Piece.text, Piece.chars]
  | ignored _ _ _ ih => rw [Piece.text_cons, List.append_assoc, ← ih, Piece.chars]

theorem matches_of_mem (h : l.Finds text ps rest) : ∀ p ∈ ps, l.Matches p := by
  induction h with
  | stop => simp
  | token hm hkept =>
    rintro p hp
    obtain rfl := List.mem_singleton.1 hp
    exact ⟨hkept, _, hm⟩
  | ignored hm hignored _ ih =>
    rintro p hp
    rcases List.mem_cons.1 hp with rfl | hp
    · exact ⟨hignored, _, hm⟩
    · exact ih p hp

end Finds

end Lexicon

/-! ## Cursors -/

/-- The token that was found, if any. -/
def foundToken? : Outcome (Option Token) → Option Token
  | .ok t => t
  | .error _ => none

/-- A cursor stands in a window behind some of the text. -/
structure Cursor.Behind (c : Cursor) (w : Window) (before : List Char) : Prop where
  text_eq : w.text = before ++ (c.ahead ++ w.after)
  position_eq : c.position = .after before

namespace Cursor.Behind

variable {c : Cursor} {w : Window} {before : List Char}

theorem ofWindow (w : Window) : (Cursor.ofWindow w).Behind w w.before :=
  ⟨List.append_assoc .., rfl⟩

theorem offset_eq (h : c.Behind w before) : c.offset = Text.bytes before := by
  rw [Cursor.offset, h.position_eq, Text.offset_after]

/-- Characters that a cursor goes over come to be behind it. -/
theorem advance (h : c.Behind w before) {chars rest : List Char} (hahead : c.ahead = chars ++ rest) :
    (c.advance chars.length).Behind w (before ++ chars) where
  text_eq := by simp [h.text_eq, hahead, Cursor.advance]
  position_eq := by
    rw [Position.after, Position.feed_append, ← Position.after, ← h.position_eq]
    simp [hahead, Cursor.advance]

end Cursor.Behind

namespace Lexicon

open Lexer (Piece)

variable {l : Lexicon}

/-- Nothing matches the empty text. -/
theorem match?_nil : l.match? [] = none := by
  by_contra h
  obtain ⟨⟨name, n⟩, hm⟩ := Option.ne_none_iff_exists'.1 h
  have := match?_eq_some hm
  rw [List.length_nil] at this
  omega

/-- The second cursor is reached from the first one over matches of ignored terminals. -/
inductive Passes (l : Lexicon) : Cursor → Cursor → Prop
  | stay {c : Cursor} : Passes l c c
  | past {c stop : Cursor} {name : String} {n : Nat} (h : l.match? c.ahead = some (name, n))
    (hignored : l.isIgnored name = true) (k : Passes l (c.advance n) stop) : Passes l c stop

/-- What is found at a cursor, and where the lexicon is left: there is the end of the window, a match of a terminal that
is not ignored, or nothing that matches. -/
inductive Pulls (l : Lexicon) (stop : Cursor) : Outcome (Option Token) → Cursor → Prop
  | ended (h : stop.ahead = []) : Pulls l stop (.ok none) stop
  | found {name : String} {n : Nat} (h : l.match? stop.ahead = some (name, n)) (hkept : l.isIgnored name = false) :
    Pulls l stop (.ok (some (tokenAt stop name n))) { stop.advance n with last := some (tokenAt stop name n) }
  | refused (hne : stop.ahead ≠ []) (h : l.match? stop.ahead = none) :
    Pulls l stop (.error (.parse (l.unexpected stop))) stop

/-- What is behind a match of an ignored terminal is pulled. -/
theorem pull_ignored (hcallbacks : l.callbacks = []) {cursor : Cursor} {name : String} {n : Nat}
    (hm : l.match? cursor.ahead = some (name, n)) (hignored : l.isIgnored name = true) :
    (l.pull cursor).result = (l.pull (cursor.advance n)).result ∧
      (l.pull cursor).cursor = (l.pull (cursor.advance n)).cursor := by
  have hne : cursor.ahead ≠ [] := fun h => by
    rw [h, match?_nil] at hm
    cases hm
  rw [pull, dif_neg hne]
  split
  · rename_i hm'
    cases hm.symm.trans hm'
    simp [hcallbacks, hignored, tokenAt, Token.ofText, Pulled.counted]
  · rename_i hno
    obtain ⟨n, rfl⟩ := Nat.exists_eq_add_one_of_ne_zero (Nat.pos_iff_ne_zero.1 (match?_eq_some hm).1)
    exact absurd hm (hno name n)

/-- A lexicon without callbacks goes over ignored matches to a place that it pulls at. -/
theorem pull_pulls (hcallbacks : l.callbacks = []) (cursor : Cursor) :
    ∃ stop, l.Passes cursor stop ∧ l.Pulls stop (l.pull cursor).result (l.pull cursor).cursor := by
  induction hsize : cursor.size using Nat.strong_induction_on generalizing cursor with
  | _ size ih =>
    by_cases hend : cursor.ahead = []
    · rw [pull, dif_pos hend]
      exact ⟨cursor, .stay, .ended hend⟩
    cases hm : l.match? cursor.ahead with
    | none =>
      refine ⟨cursor, .stay, ?_⟩
      rw [pull, dif_neg hend]
      split
      · rename_i hm'
        cases hm.symm.trans hm'
      · exact .refused hend hm
    | some found =>
      obtain ⟨name, n⟩ := found
      have hpos := (match?_eq_some hm).1
      cases hname : l.isIgnored name with
      | true =>
        obtain ⟨stop, hpasses, hpulls⟩ := ih _ (hsize ▸ cursor.size_advance_lt hpos hend) _ rfl
        obtain ⟨hresult, hcursor⟩ := pull_ignored hcallbacks hm hname
        rw [hresult, hcursor]
        exact ⟨stop, .past hm hname hpasses, hpulls⟩
      | false =>
        obtain ⟨n, rfl⟩ := Nat.exists_eq_add_one_of_ne_zero (Nat.pos_iff_ne_zero.1 hpos)
        obtain ⟨hresult, hcursor⟩ := pull_match hend hm hcallbacks hname
        rw [hresult, hcursor]
        exact ⟨cursor, .stay, .found hm hname⟩

/-- A match cuts the characters ahead in two. -/
theorem exists_append_of_match? {cursor : Cursor} {name : String} {n : Nat}
    (hm : l.match? cursor.ahead = some (name, n)) :
    ∃ chars rest, cursor.ahead = chars ++ rest ∧ chars.length = n ∧ (cursor.advance n).ahead = rest := by
  have hle := (match?_eq_some hm).2
  refine ⟨cursor.ahead.take n, cursor.ahead.drop n, (List.take_append_drop ..).symm, ?_, rfl⟩
  rw [List.length_take]
  omega

section Behind

variable {w : Window} {before : List Char} {cursor stop left : Cursor} {result : Outcome (Option Token)}

/-- A token has the place of its piece in the text. -/
theorem Pulls.finds (h : l.Pulls stop result left) (hb : stop.Behind w before) : ∃ ps,
    l.Finds stop.ahead ps left.ahead ∧ left.Behind w (before ++ Piece.text ps) ∧
      (foundToken? result).toList = Piece.tokens w.text (Text.bytes before) ps := by
  cases h with
  | ended h => exact ⟨[], .stop (h ▸ match?_nil), by simpa using hb, rfl⟩
  | refused _ h => exact ⟨[], .stop h, by simpa using hb, rfl⟩
  | @found name n h hkept =>
    obtain ⟨chars, rest, hahead, rfl, hrest⟩ := exists_append_of_match? h
    refine ⟨[.token name chars], ?_, ?_, ?_⟩
    · show l.Finds stop.ahead _ (stop.advance chars.length).ahead
      rw [hrest]
      rw [hahead] at h ⊢
      exact .token h hkept
    · rw [Piece.text_cons, Piece.text_nil, List.append_nil]
      exact ⟨(hb.advance hahead).text_eq, (hb.advance hahead).position_eq⟩
    · have hspan : Text.span? w.text (Text.bytes before) (Text.bytes before + Text.bytes chars) =
          some (stop.position.spanOf chars) := by
        rw [hb.text_eq, hb.position_eq, hahead, List.append_assoc]
        exact Text.span?_append ..
      rw [Piece.tokens, Piece.tokens, hspan, tokenAt, hahead, List.take_left]
      rfl

/-- The cursor is left behind the pieces. -/
theorem Passes.finds (h : l.Passes cursor stop) (k : l.Pulls stop result left) : ∀ {before : List Char},
    cursor.Behind w before → ∃ ps, l.Finds cursor.ahead ps left.ahead ∧ left.Behind w (before ++ Piece.text ps) ∧
      (foundToken? result).toList = Piece.tokens w.text (Text.bytes before) ps := by
  induction h with
  | stay => exact k.finds
  | @past cursor stop name n h hignored _ ih =>
    intro before hb
    obtain ⟨chars, rest, hahead, rfl, hrest⟩ := exists_append_of_match? h
    obtain ⟨ps, hfinds, hbehind, htokens⟩ := ih k (hb.advance hahead)
    refine ⟨.ignored name chars :: ps, ?_, ?_, ?_⟩
    · rw [hrest] at hfinds
      rw [hahead] at h ⊢
      exact .ignored h hignored hfinds
    · rwa [Piece.text_cons, ← List.append_assoc]
    · rwa [Piece.tokens, ← Text.bytes_append]

/-- A lexicon without callbacks pulls what it finds. -/
theorem pull_finds (hcallbacks : l.callbacks = []) (cursor : Cursor) (hb : cursor.Behind w before) : ∃ ps,
    l.Finds cursor.ahead ps (l.pull cursor).cursor.ahead ∧
      (l.pull cursor).cursor.Behind w (before ++ Piece.text ps) ∧
      (foundToken? (l.pull cursor).result).toList = Piece.tokens w.text (Text.bytes before) ps := by
  obtain ⟨stop, hpasses, hpulls⟩ := pull_pulls hcallbacks cursor
  exact hpasses.finds hpulls hb

end Behind

end Lexicon

end GrammarKit
