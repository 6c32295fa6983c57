/-
Texts cut into pieces. A piece is a token of a terminal, of a length at which the terminal may be matched there, or text
that is skipped. Places between characters say the same: a terminal takes the text between two places, or it is skipped.
The tokens between two places are read one after the other, each after skipped text, and a text is cut into pieces
exactly if its end is reached from its beginning so, over the tokens of the pieces and text that is skipped.
-/
import GrammarKit.Earley.Scannerless
import GrammarKit.Proofs.Closure
import GrammarKit.Proofs.Text.Offsets
import Mathlib.Logic.Relation

namespace GrammarKit

namespace Earley

namespace Scannerless

/-! ## Pieces -/

/-- A stretch of text: a token of a terminal, or what is skipped. -/
inductive Piece where
  | token (terminal : String) (chars : List Char)
  | skipped (chars : List Char)

namespace Piece

def chars : Piece → List Char
  | token _ chars => chars
  | skipped chars => chars

def terminal? : Piece → Option String
  | token terminal _ => some terminal
  | skipped _ => none

/-- The terminals of pieces, one after the other. -/
def word (ps : List Piece) : List String := ps.filterMap terminal?

/-- The tokens of pieces that follow each other from a byte offset on. -/
def tokens (lines : LineTable) : Nat → List Piece → List Token
  | _, [] => []
  | offset, token terminal chars :: ps =>
    .ofText terminal (String.ofList chars) (some (lines.span offset (offset + Text.bytes chars))) ::
      tokens lines (offset + Text.bytes chars) ps
  | offset, skipped chars :: ps => tokens lines (offset + Text.bytes chars) ps

/-- A piece may stand at the start of a text. -/
def Fits (s : Scannerless) (text : List Char) : Piece → Prop
  | token terminal chars => chars.length ∈ s.lengths terminal text
  | skipped chars => ∃ name ∈ s.ignore, (s.terminals.lookup name).bind (taken? · text) = some chars.length

end Piece

/-- A text is cut into pieces, each of which may stand where it begins. -/
inductive Cut (s : Scannerless) : List Char → List Piece → Prop
  | nil : Cut s [] []
  | cons {p : Piece} {rest : List Char} {ps : List Piece} (h : p.Fits s (p.chars ++ rest)) (k : Cut s rest ps) :
    Cut s (p.chars ++ rest) (p :: ps)

theorem kinds_tokens (lines : LineTable) : ∀ (offset : Nat) (ps : List Piece),
    (Piece.tokens lines offset ps).map Token.kind = Piece.word ps
  | _, [] => rfl
  | _, .token terminal _ :: ps => congrArg (terminal :: ·) (kinds_tokens lines _ ps)
  | _, .skipped _ :: ps => kinds_tokens lines _ ps

end Scannerless

end Earley

namespace LineTable

@[simp] theorem span_start (t : LineTable) (start stop : Nat) : (t.span start stop).start = start := rfl

@[simp] theorem span_stop (t : LineTable) (start stop : Nat) : (t.span start stop).stop = stop := rfl

end LineTable

namespace Token

/-- A token has the text that its span cuts out. -/
def StandsIn (text : List Char) (t : Token) : Prop := ∃ span before inside after, t.span = some span ∧
  Text.cut3? text span.start span.stop = some (before, inside, after) ∧ t.text? = some (String.ofList inside)

/-- A token ends before another one begins. -/
def Precedes (t u : Token) : Prop := ∃ x y, t.span = some x ∧ u.span = some y ∧ x.stop ≤ y.start

end Token

namespace Earley

namespace Scannerless

theorem Cut.standsIn {s : Scannerless} {text rest : List Char} {ps : List Piece} (h : Cut s rest ps) :
    ∀ {before : List Char}, text = before ++ rest →
      ∀ t ∈ Piece.tokens (.ofText text) (Text.bytes before) ps, t.StandsIn text := by
  induction h with
  | nil => exact fun _ t ht => nomatch ht
  | @cons p rest ps _ _ ih =>
    intro before htext t ht
    have hafter : text = (before ++ p.chars) ++ rest := by rw [htext, List.append_assoc]
    have hrest := ih hafter t
    rw [Text.bytes_append] at hrest
    cases p with
    | skipped chars => exact hrest ht
    | token a chars =>
      rcases List.mem_cons.1 ht with rfl | ht
      · refine ⟨_, before, chars, rest, rfl, ?_, rfl⟩
        rw [LineTable.span_start, LineTable.span_stop, htext]
        exact Text.cut3?_append before chars rest
      · exact hrest ht

theorem Piece.tokens_precede (lines : LineTable) : ∀ (offset : Nat) (ps : List Piece),
    (∀ t ∈ tokens lines offset ps, ∃ x, t.span = some x ∧ offset ≤ x.start) ∧
      (tokens lines offset ps).Pairwise Token.Precedes
  | _, [] => ⟨fun _ h => (nomatch h), .nil⟩
  | offset, token a chars :: ps => by
    obtain ⟨hfrom, hpairwise⟩ := tokens_precede lines (offset + Text.bytes chars) ps
    refine ⟨fun t ht => ?_, .cons (fun t ht => ?_) hpairwise⟩
    · rcases List.mem_cons.1 ht with rfl | ht
      · exact ⟨_, rfl, Nat.le_refl _⟩
      · obtain ⟨x, hx, hle⟩ := hfrom t ht
        exact ⟨x, hx, Nat.le_trans (Nat.le_add_right ..) hle⟩
    · obtain ⟨x, hx, hle⟩ := hfrom t ht
      exact ⟨_, x, rfl, hx, hle⟩
  | offset, skipped chars :: ps => by
    obtain ⟨hfrom, hpairwise⟩ := tokens_precede lines (offset + Text.bytes chars) ps
    refine ⟨fun t ht => ?_, hpairwise⟩
    obtain ⟨x, hx, hle⟩ := hfrom t ht
    exact ⟨x, hx, Nat.le_trans (Nat.le_add_right ..) hle⟩

/-! ## Places -/

variable (s : Scannerless) (text : List Char)

/-- A terminal takes the text between two places. -/
def Takes (terminal : String) (j k : Nat) : Prop := ∃ n ∈ s.lengths terminal (text.drop j), k = j + n

/-- The text between two places is skipped. -/
def Skips (j k : Nat) : Prop :=
  ∃ name ∈ s.ignore, ∃ n, (s.terminals.lookup name).bind (taken? · (text.drop j)) = some n ∧ k = j + n

/-- Nothing, or only skipped text, lies between two places. -/
def Gap : Nat → Nat → Prop := Relation.ReflTransGen (s.Skips text)

/-- The token of a terminal between two places. -/
def tokenAt (terminal : String) (j k : Nat) : Token :=
  let start := Text.bytes (text.take j)
  let taken := (text.drop j).take (k - j)
  .ofText terminal (String.ofList taken) (some ((LineTable.ofText text).span start (start + Text.bytes taken)))

/-- Tokens from one place to another, each after skipped text. -/
inductive Reads : Nat → List Token → Nat → Prop
  | nil {j : Nat} : Reads j [] j
  | cons {i j k l : Nat} {a : String} {ts : List Token} (gap : s.Gap text i j) (h : s.Takes text a j k)
    (rest : Reads k ts l) : Reads i (tokenAt text a j k :: ts) l

/-- Tokens between two places, with skipped text before, between and after them. -/
def Spans (j : Nat) (ts : List Token) (k : Nat) : Prop := ∃ m, s.Reads text j ts m ∧ s.Gap text m k

variable {s text}

theorem pos_of_taken? {m : Matcher} {t : List Char} {n : Nat} (h : taken? m t = some n) : 0 < n := by
  simpa using (Option.filter_eq_some_iff.1 h).2

theorem pos_of_mem_lengths {a : String} {t : List Char} {n : Nat} (h : n ∈ s.lengths a t) : 0 < n := by
  unfold lengths at h
  split at h
  · cases h
  · split at h
    · cases h
    · rename_i m _ longest hl
      split at h
      · rcases List.mem_cons.1 (mem_fresh.1 h).1 with rfl | h
        · exact pos_of_taken? hl
        · obtain ⟨cut, -, hn⟩ := List.mem_filterMap.1 h
          exact pos_of_taken? hn
      · rw [List.mem_singleton.1 h]
        exact pos_of_taken? hl

theorem Takes.lt {a : String} {j k : Nat} (h : s.Takes text a j k) : j < k := by
  obtain ⟨n, hn, rfl⟩ := h
  have := pos_of_mem_lengths hn
  omega

theorem Skips.lt {j k : Nat} (h : s.Skips text j k) : j < k := by
  obtain ⟨name, -, n, hn, rfl⟩ := h
  obtain ⟨m, -, hn⟩ := Option.bind_eq_some_iff.1 hn
  have := pos_of_taken? hn
  omega

theorem Gap.le {j k : Nat} (h : s.Gap text j k) : j ≤ k := by
  induction h with
  | refl => exact Nat.le_refl _
  | tail _ h ih => exact Nat.le_trans ih (Nat.le_of_lt h.lt)

namespace Reads

variable {i j k : Nat} {ts us : List Token}

theorem le (h : s.Reads text j ts k) : j ≤ k := by
  induction h with
  | nil => exact Nat.le_refl _
  | cons gap h _ ih => exact Nat.le_trans (Nat.le_trans gap.le (Nat.le_of_lt h.lt)) ih

theorem append (h : s.Reads text i ts j) (k' : s.Reads text j us k) : s.Reads text i (ts ++ us) k := by
  induction h with
  | nil => exact k'
  | cons gap h _ ih => exact .cons gap h (ih k')

theorem split : ∀ {i : Nat} {ts us : List Token} {k : Nat}, s.Reads text i (ts ++ us) k →
    ∃ j, s.Reads text i ts j ∧ s.Reads text j us k
  | i, [], _, _, h => ⟨i, .nil, h⟩
  | _, _ :: _, _, _, .cons gap h rest => by
    obtain ⟨j, h1, h2⟩ := rest.split
    exact ⟨j, .cons gap h h1, h2⟩

theorem eq_of_nil (h : s.Reads text j [] k) : k = j := by
  cases h
  rfl

end Reads

namespace Spans

variable {i j k : Nat} {ts us : List Token}

theorem refl : s.Spans text j [] j := ⟨j, .nil, .refl⟩

theorem of_gap (h : s.Gap text j k) : s.Spans text j [] k := ⟨j, .nil, h⟩

theorem of_takes {a : String} (h : s.Takes text a j k) : s.Spans text j [tokenAt text a j k] k :=
  ⟨k, .cons .refl h .nil, .refl⟩

theorem le (h : s.Spans text j ts k) : j ≤ k := by
  obtain ⟨m, h, gap⟩ := h
  exact Nat.le_trans h.le gap.le

theorem append (h : s.Spans text i ts j) (k' : s.Spans text j us k) : s.Spans text i (ts ++ us) k := by
  obtain ⟨m, h, gap⟩ := h
  obtain ⟨n, hn, gap'⟩ := k'
  cases hn with
  | nil => exact ⟨m, by rwa [List.append_nil], gap.trans gap'⟩
  | cons gap'' ht rest => exact ⟨n, h.append (.cons (gap.trans gap'') ht rest), gap'⟩

/-- Between a place and itself there is nothing. -/
theorem eq_nil (h : s.Spans text j ts j) : ts = [] := by
  obtain ⟨m, h, gap⟩ := h
  cases h with
  | nil => rfl
  | cons gap' ht rest =>
    have := gap'.le
    have := ht.lt
    have := rest.le
    have := gap.le
    omega

end Spans

/-! ## Pieces between places -/

theorem tokenAt_append {before chars rest : List Char} (a : String) :
    tokenAt (before ++ (chars ++ rest)) a before.length (before.length + chars.length) =
      .ofText a (String.ofList chars) (some ((LineTable.ofText (before ++ (chars ++ rest))).span (Text.bytes before)
        (Text.bytes before + Text.bytes chars))) := by
  simp [tokenAt]

/-- The tokens of pieces are read one after the other. -/
theorem Cut.spans {rest : List Char} {ps : List Piece} (h : s.Cut rest ps) : ∀ {before : List Char},
    text = before ++ rest →
      s.Spans text before.length (Piece.tokens (.ofText text) (Text.bytes before) ps) text.length := by
  induction h with
  | nil =>
    rintro before rfl
    rw [List.append_nil]
    exact .refl
  | @cons p rest ps h _ ih =>
    rintro before rfl
    have hrest := ih (List.append_assoc before p.chars rest).symm
    rw [Text.bytes_append, List.length_append] at hrest
    cases p with
    | token a chars =>
      have ht : s.Takes (before ++ (chars ++ rest)) a before.length (before.length + chars.length) :=
        ⟨_, by rw [List.drop_left]; exact h, rfl⟩
      have := (Spans.of_takes ht).append hrest
      rwa [tokenAt_append] at this
    | skipped chars =>
      obtain ⟨name, hname, hn⟩ := h
      exact (Spans.of_gap (.single ⟨name, hname, _, by rw [List.drop_left]; exact hn, rfl⟩)).append hrest

section Pieces

variable {i j : Nat}

/-- The characters between two places. -/
theorem drop_eq_append (h : i ≤ j) : text.drop i = (text.drop i).take (j - i) ++ text.drop j := by
  conv_lhs => rw [← List.take_append_drop (j - i) (text.drop i)]
  rw [List.drop_drop, Nat.add_sub_cancel' h]

theorem bytes_take (h : i ≤ j) :
    Text.bytes (text.take j) = Text.bytes (text.take i) + Text.bytes ((text.drop i).take (j - i)) := by
  rw [← Text.bytes_append, ← List.take_add, Nat.add_sub_cancel' h]

theorem length_between (hj : j ≤ text.length) : ((text.drop i).take (j - i)).length = j - i := by
  rw [List.length_take, List.length_drop]
  omega

theorem Cut.between (h : i ≤ j) {p : Piece} (hp : p.chars = (text.drop i).take (j - i)) (hfit : p.Fits s (text.drop i))
    {ps : List Piece} (hps : s.Cut (text.drop j) ps) : s.Cut (text.drop i) (p :: ps) := by
  rw [drop_eq_append h, ← hp] at hfit ⊢
  exact .cons hfit hps

theorem Gap.exists_cut (h : s.Gap text i j) (hj : j ≤ text.length) {ps : List Piece} (hps : s.Cut (text.drop j) ps) :
    ∃ qs, s.Cut (text.drop i) qs ∧ Piece.tokens (.ofText text) (Text.bytes (text.take i)) qs =
      Piece.tokens (.ofText text) (Text.bytes (text.take j)) ps := by
  induction h using Relation.ReflTransGen.head_induction_on with
  | refl => exact ⟨ps, hps, rfl⟩
  | @head i m h gap ih =>
    obtain ⟨qs, hqs, htokens⟩ := ih
    have him := Nat.le_of_lt h.lt
    have hlen := length_between (i := i) (Nat.le_trans (Gap.le gap) hj)
    obtain ⟨name, hname, n, hn, rfl⟩ := h
    have hfit : (Piece.skipped ((text.drop i).take (i + n - i))).Fits s (text.drop i) :=
      ⟨name, hname, by rw [hlen, hn, Nat.add_sub_cancel_left]⟩
    exact ⟨_, .between him rfl hfit hqs, by rw [Piece.tokens, ← bytes_take him, htokens]⟩

theorem Reads.exists_cut {ts : List Token} (h : s.Reads text i ts j) (hj : j ≤ text.length) {ps : List Piece}
    (hps : s.Cut (text.drop j) ps) : ∃ qs, s.Cut (text.drop i) qs ∧
      Piece.tokens (.ofText text) (Text.bytes (text.take i)) qs =
        ts ++ Piece.tokens (.ofText text) (Text.bytes (text.take j)) ps := by
  induction h with
  | nil => exact ⟨ps, hps, rfl⟩
  | @cons i j k l a ts gap ht rest ih =>
    obtain ⟨qs, hqs, htokens⟩ := ih hj hps
    have hjk := Nat.le_of_lt ht.lt
    have hk := Nat.le_trans rest.le hj
    have hlen := length_between (i := j) hk
    obtain ⟨n, hn, hk'⟩ := ht
    have hpiece : s.Cut (text.drop j) (.token a ((text.drop j).take (k - j)) :: qs) :=
      .between hjk rfl (by rwa [Piece.Fits, hlen, hk', Nat.add_sub_cancel_left]) hqs
    obtain ⟨qs', hqs', htokens'⟩ := gap.exists_cut (Nat.le_trans hjk hk) hpiece
    refine ⟨qs', hqs', ?_⟩
    rw [htokens', Piece.tokens, ← bytes_take hjk, htokens, tokenAt, ← bytes_take hjk, List.cons_append]

end Pieces

/-- A text is cut into pieces with the tokens that lead from its beginning to its end. -/
theorem spans_iff_exists_cut {ts : List Token} : s.Spans text 0 ts text.length ↔
    ∃ ps, s.Cut text ps ∧ Piece.tokens (.ofText text) 0 ps = ts := by
  constructor
  · rintro ⟨m, h, gap⟩
    have hend : s.Cut (text.drop text.length) [] := by
      rw [List.drop_length]
      exact .nil
    obtain ⟨qs, hqs, hskipped⟩ := gap.exists_cut (Nat.le_refl _) hend
    obtain ⟨ps, hps, htokens⟩ := h.exists_cut gap.le hqs
    refine ⟨ps, hps, ?_⟩
    rw [hskipped, Piece.tokens, List.append_nil] at htokens
    exact htokens
  · rintro ⟨ps, h, rfl⟩
    exact h.spans (List.nil_append text).symm

end Scannerless

end Earley

end GrammarKit
