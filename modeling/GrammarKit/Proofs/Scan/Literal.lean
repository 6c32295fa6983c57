/-
Patterns of literals. The characters of a literal are written one by one, each that has a meaning in patterns behind a
backslash, and are read back as the very same characters, unless a switch changes what a character stands for: `i` adds
other cases, `x` drops blanks. Without these two switches a literal matches its own text only.
-/
import GrammarKit.Proofs.Regex.Cut
import GrammarKit.Proofs.Scan.Anchored

namespace GrammarKit.Regex

/-- Characters stand for themselves. -/
structure Options.Literal (o : Options) : Prop where
  ignoreCase : o.ignoreCase = false
  spaced : o.spaced = false

/-- The switches that leave characters as they are. -/
def isQuiet (c : Char) : Bool := ['m', 's', 'U', 'u', 'R'].contains c

/-- The characters of a text, one after the other. -/
def Expr.text (cs : List Char) : Expr := .seqAll (cs.map fun c => .chars (.single c))

/-! ## Matching a text -/

theorem CharSet.contains_single (c d : Char) : (CharSet.single c).contains d = (c == d) := by
  rw [Bool.eq_iff_iff, beq_iff_eq, ← Char.toNat_inj]
  simp only [contains, single, List.any_cons, List.any_nil, Bool.or_false, Bool.and_eq_true, decide_eq_true_eq]
  omega

theorem Expr.text_concat (cs : List Char) (c : Char) : text (cs ++ [c]) =
    if text cs matches .empty then .chars (.single c) else .seq (text cs) (.chars (.single c)) := by
  rw [text, List.map_append, seqAll, List.foldl_append]
  rfl

/-- The place behind the next characters. -/
def Place.over (p : Place) (cs : List Char) : Place :=
  ⟨p.index + cs.length, cs.getLast?.or p.prev, p.rest.drop cs.length⟩

/-- A text is matched where it comes next. -/
theorem Expr.ends_text (cs : List Char) (p : Place) :
    (text cs).ends p = if cs <+: p.rest then [p.over cs] else [] := by
  induction cs using List.reverseRecOn with
  | nil => rw [if_pos List.nil_prefix]; rfl
  | append_singleton cs c ih =>
    -- the last character, after those before it
    have hlast : ((text cs).ends p).flatMap (chars (.single c)).ends =
        if cs ++ [c] <+: p.rest then [p.over (cs ++ [c])] else [] := by
      rw [ih]
      by_cases hcs : cs <+: p.rest
      · obtain ⟨rest, hrest⟩ := hcs
        have hdrop : (p.over cs).rest = rest := by rw [Place.over, ← hrest, List.drop_left]
        rw [if_pos ⟨rest, hrest⟩, List.flatMap_singleton, ends, hdrop, ← hrest]
        cases rest with
        | nil => exact (if_neg fun h => absurd h.length_le (by simp)).symm
        | cons d rest =>
          simp only [CharSet.contains_single, beq_iff_eq, List.prefix_append_right_inj, List.cons_prefix_cons,
            List.nil_prefix, and_true]
          split
          · rename_i hcd
            subst hcd
            simp [Place.over, ← hrest, Nat.add_assoc]
          · rfl
      · rw [if_neg hcs, if_neg fun h => hcs ((List.prefix_append cs [c]).trans h), List.flatMap_nil]
    rw [text_concat]
    split
    · rename_i hempty
      rw [hempty, ends, List.flatMap_singleton] at hlast
      exact hlast
    · show firstPlaces (((text cs).ends p).flatMap (chars (.single c)).ends) = _
      rw [hlast]
      split <;> rfl

namespace Reader

variable {o : Options} {alternatives : List Expr} {pieces : List Piece} {cs : List Char} {names : List String}

/-! ## Single characters -/

theorem ok_bind {α β : Type} (a : α) (f : α → Except Fault β) : (Except.ok a >>= f) = f a := rfl

theorem bump_apply (c : Char) : bump ⟨c :: cs, o, names⟩ = .ok ((), ⟨cs, o, names⟩) := rfl

theorem peek_apply (c : Char) : peek ⟨c :: cs, o, names⟩ = .ok (some c, ⟨c :: cs, o, names⟩) := rfl

theorem isMeta_iff {c : Char} : isMeta c = true ↔
    c ∈ ['\\', '.', '+', '*', '?', '(', ')', '|', '[', ']', '\x7b', '\x7d', '^', '$', '#', '&', '-', '~'] := by
  rw [isMeta, String.contains_char_eq, decide_eq_true_iff]
  rfl

theorem readEscape_apply {c : Char} (hc : isMeta c = true) :
    readEscape ⟨'\\' :: c :: cs, o, names⟩ = .ok (.literal c false, ⟨cs, o, names⟩) := by
  have hescapable : isEscapable c = true := by rw [isEscapable, hc, Bool.true_or]
  -- none of these characters starts an escape of another kind
  have hread : readEscape ⟨'\\' :: c :: cs, o, names⟩ =
      (if isEscapable c then pure (.literal c false) else throw .badEscape : Reader Atom) ⟨cs, o, names⟩ := by
    rw [isMeta_iff] at hc
    simp only [List.mem_cons, List.not_mem_nil, or_false] at hc
    rcases hc with
      rfl | rfl | rfl | rfl | rfl | rfl | rfl | rfl | rfl | rfl | rfl | rfl | rfl | rfl | rfl | rfl | rfl | rfl
    all_goals rfl
  rw [hread, if_pos hescapable]
  rfl

theorem skipSpace_apply (ho : o.Literal) : skipSpace ⟨cs, o, names⟩ = .ok ((), ⟨cs, o, names⟩) := by
  show Except.ok ((), if o.spaced then _ else _) = _
  rw [ho.spaced, if_neg Bool.false_ne_true]

theorem literal_apply (ho : o.Literal) (c : Char) :
    literal c false ⟨cs, o, names⟩ = .ok (.chars (.single c), ⟨cs, o, names⟩) := by
  show (if !o.unicode && c.toNat > 127 && (false || o.ignoreCase) then throw .partialCharacter
    else pure (.chars (foldBy o (.single c))) : Reader Expr) _ = _
  rw [ho.ignoreCase, Bool.or_self, Bool.and_false, if_neg Bool.false_ne_true, foldBy, ho.ignoreCase]
  rfl

/-- A character that neither ends, divides, opens nor repeats is a part of its own. -/
theorem body_atom (ho : o.Literal) {c : Char} (hc : c ∉ [')', '|', '(', '[', '?', '*', '+', '\x7b']) {e : Expr} {s : Reading}
    (h : readAtom c ⟨c :: cs, o, names⟩ = .ok (e, s)) (fuel : Nat) :
    body (fuel + 1) alternatives pieces ⟨c :: cs, o, names⟩ = body fuel alternatives (.expr e :: pieces) s := by
  rw [body, bind_apply, skipSpace_apply ho, ok_bind, bind_apply, peek_apply, ok_bind]
  dsimp only
  generalize hd : some c = d
  split
  case h_10 =>
    obtain rfl := Option.some.inj hd
    show (readAtom c >>= fun e => body fuel alternatives (.expr e :: pieces)) ⟨c :: cs, o, names⟩ = _
    rw [bind_apply, h]
    rfl
  all_goals simp_all

theorem body_escaped (ho : o.Literal) {c : Char} (hc : isMeta c = true) (fuel : Nat) :
    body (fuel + 1) alternatives pieces ⟨'\\' :: c :: cs, o, names⟩ =
      body fuel alternatives (.expr (.chars (.single c)) :: pieces) ⟨cs, o, names⟩ := by
  refine body_atom ho (by decide) ?_ fuel
  show (readEscape >>= ofAtom) ⟨'\\' :: c :: cs, o, names⟩ = _
  rw [bind_apply, readEscape_apply hc]
  exact literal_apply ho c

theorem body_plain (ho : o.Literal) {c : Char} (hc : ¬ isMeta c = true) (fuel : Nat) :
    body (fuel + 1) alternatives pieces ⟨c :: cs, o, names⟩ =
      body fuel alternatives (.expr (.chars (.single c)) :: pieces) ⟨cs, o, names⟩ := by
  rw [isMeta_iff] at hc
  simp only [List.mem_cons, List.not_mem_nil, or_false, not_or] at hc
  refine body_atom ho (by simp [hc]) ?_ fuel
  have hatom : readAtom c ⟨c :: cs, o, names⟩ = literal c false ⟨cs, o, names⟩ := by
    unfold readAtom
    split
    case h_5 => rfl
    all_goals simp_all
  rw [hatom, literal_apply ho]

/-! ## Literals and groups -/

/-- From where switches leave characters as they are, the source reads as an expression up to its end. -/
def ReadsAs (source : List Char) (e : Expr) : Prop :=
  ∀ n, source.length < n → ∀ o : Options, o.Literal → ∀ names rest r, Ended rest →
    body n [] [] ⟨source ++ rest, o, names⟩ = .ok r → r = (e, ⟨rest, o, names⟩)

theorem body_end (ho : o.Literal) {rest : List Char} (hrest : Ended rest) (fuel : Nat) :
    body (fuel + 1) alternatives pieces ⟨rest, o, names⟩ =
      .ok (choice alternatives (sequence pieces), ⟨rest, o, names⟩) := by
  rw [body, bind_apply, skipSpace_apply ho]
  obtain rfl | ⟨after, rfl⟩ := hrest <;> rfl

/-- A source that can be read reads as what it reads as anywhere. -/
theorem ReadsAs.read {source : List Char} {e e' : Expr} (h : ReadsAs source e) (hread : Expr.read source = .ok e') :
    e' = e := by
  obtain ⟨s, hs, -⟩ := read_eq_ok.1 hread
  have hsame := h _ (Nat.lt_succ_self _) {} ⟨rfl, rfl⟩ [] [] _ (.inl rfl) (by rwa [List.append_nil])
  exact congrArg Prod.fst hsame

theorem body_text (ho : o.Literal) (text : List Char) : ∀ (fuel : Nat) (pieces : List Piece),
    body (fuel + text.length) alternatives pieces
        ⟨text.flatMap (fun c => if isMeta c then ['\\', c] else [c]) ++ cs, o, names⟩ =
      body fuel alternatives ((text.map fun c => .expr (.chars (.single c))).reverse ++ pieces) ⟨cs, o, names⟩ := by
  induction text with
  | nil => exact fun _ _ => rfl
  | cons c text ih =>
    intro fuel pieces
    rw [List.length_cons, ← Nat.add_assoc, List.flatMap_cons, List.append_assoc, List.map_cons, List.reverse_cons,
      List.append_assoc]
    refine Eq.trans ?_ (ih fuel _)
    split
    · rename_i hc
      exact body_escaped ho hc _
    · rename_i hc
      exact body_plain ho hc _

theorem sequence_chars (text : List Char) :
    sequence (text.map fun c => .expr (.chars (.single c))).reverse = .text text := by
  rw [sequence, List.reverse_reverse, List.filterMap_map, Expr.text, ← List.filterMap_eq_map]
  rfl

theorem length_le_escaped (text : List Char) :
    text.length ≤ (text.flatMap fun c => if isMeta c then ['\\', c] else [c]).length := by
  induction text with
  | nil => exact Nat.le_refl 0
  | cons c text ih =>
    rw [List.flatMap_cons, List.length_append, List.length_cons]
    split <;> simp only [List.length_cons, List.length_nil] <;> omega

theorem readsAs_escapeText (text : String) : ReadsAs (Pattern.escapeText text).toList (.text text.toList) := by
  intro n hn o ho names rest r hrest h
  rw [Pattern.escapeText, String.toList_ofList] at hn h
  have hlength := length_le_escaped text.toList
  obtain ⟨fuel, rfl⟩ : ∃ fuel, n = fuel + 1 + text.toList.length :=
    ⟨n - (text.toList.length + 1), by unfold isMeta at hlength; omega⟩
  have hread := (body_text ho text.toList (fuel + 1) []).symm.trans h
  rw [List.append_nil, body_end ho hrest, sequence_chars] at hread
  exact (Except.ok.inj hread).symm

theorem applySwitch_quiet {c : Char} (hc : isQuiet c) (ho : o.Literal) (on : Bool) :
    ∃ o', o'.Literal ∧ applySwitch o on c = some o' := by
  rw [isQuiet, List.contains_iff_mem] at hc
  simp only [List.mem_cons, List.not_mem_nil, or_false] at hc
  rcases hc with rfl | rfl | rfl | rfl | rfl
  all_goals
    refine ⟨_, ?_, rfl⟩
    exact ⟨ho.ignoreCase, ho.spaced⟩

/-- Quiet switches are taken over, or one stands there twice. -/
theorem switches_quiet {o₀ : Options} {r : (List Char × Options) × Reading} : ∀ {fuel : Nat} {flags seen : List Char}
    {o : Options}, (∀ c ∈ flags, isQuiet c) → o.Literal →
    switches fuel seen o ⟨flags ++ ':' :: cs, o₀, names⟩ = .ok r →
    ∃ seen' o', o'.Literal ∧ r = ((seen', o'), ⟨':' :: cs, o₀, names⟩)
  | 0, _, _, _, _, _, h => nomatch h
  | fuel + 1, [], seen, o, _, ho, h => by
    have h' : (if seen.head? == some '-' then throw .unknownSwitch else pure (seen, o) : Reader (List Char × Options))
      ⟨':' :: cs, o₀, names⟩ = .ok r := h
    split at h'
    · cases h'
    · cases h'
      exact ⟨seen, o, ho, rfl⟩
  | fuel + 1, c :: flags, seen, o, hflags, ho, h => by
    have hc := hflags c (List.mem_cons_self ..)
    obtain ⟨o', ho', happly⟩ := applySwitch_quiet hc ho (!seen.contains '-')
    have h' : (if seen.contains c then throw .unknownSwitch else
        (applySwitch o (!seen.contains '-') c).elim (throw .unknownSwitch)
          fun o => bump >>= fun _ => switches fuel (c :: seen) o : Reader (List Char × Options))
        ⟨c :: (flags ++ ':' :: cs), o₀, names⟩ = .ok r := by
      rw [isQuiet, List.contains_iff_mem] at hc
      simp only [List.mem_cons, List.not_mem_nil, or_false] at hc
      rcases hc with rfl | rfl | rfl | rfl | rfl
      all_goals exact h
    rw [happly] at h'
    split at h'
    · cases h'
    · exact switches_quiet (fun d hd => hflags d (List.mem_cons_of_mem _ hd)) ho' h'

theorem openGroup_quiet {flags : List Char} (hflags : ∀ c ∈ flags, isQuiet c) (ho : o.Literal) {r : Opening × Reading}
    (h : openGroup ⟨'(' :: '?' :: (flags ++ ':' :: cs), o, names⟩ = .ok r) :
    ∃ o', o'.Literal ∧ r = (.group o', ⟨cs, o, names⟩) := by
  rw [openGroup, bind_apply, bump_apply, ok_bind, bind_apply, skipSpace_apply ho, ok_bind] at h
  -- what comes after the question mark is neither a condition nor a name
  have h' : (switches ((flags ++ ':' :: cs).length + 1) [] o >>= fun p => next .unclosedGroup >>= fun c =>
      bump >>= fun _ => if c == ')' then (if p.1.isEmpty then throw .missingOperand else pure (.switch p.2))
        else pure (.group p.2) : Reader Opening) ⟨flags ++ ':' :: cs, o, names⟩ = .ok r := by
    cases flags with
    | nil => exact h
    | cons c flags =>
      have hc := hflags c (List.mem_cons_self ..)
      rw [isQuiet, List.contains_iff_mem] at hc
      simp only [List.mem_cons, List.not_mem_nil, or_false] at hc
      rcases hc with rfl | rfl | rfl | rfl | rfl
      all_goals exact h
  rw [bind_apply] at h'
  obtain ⟨p, hp, h'⟩ := bind_eq_ok.1 h'
  obtain ⟨seen, o', ho', rfl⟩ := switches_quiet hflags ho hp
  exact ⟨o', ho', (Except.ok.inj h').symm⟩

/-- Reads on after the opening of a group, which ends with the switches set before it. -/
def afterOpening (fuel : Nat) (outer : Options) (alternatives : List Expr) (pieces : List Piece) :
    Opening → Reader Expr
  | .switch o => do
    setOptions o
    body fuel alternatives (.switch :: pieces)
  | .group o => do
    setOptions o
    let inner ← body fuel [] []
    if (← next .unclosedGroup) != ')' then throw .unclosedGroup
    bump
    setOptions outer
    body fuel alternatives (.expr inner :: pieces)

/-- A group reads as what stands in it. -/
theorem body_group {flags : List Char} (hflags : ∀ c ∈ flags, isQuiet c) (ho : o.Literal) {source : List Char} {e : Expr}
    (hsource : ReadsAs source e) {n : Nat} (hn : source.length < n) {r : Expr × Reading}
    (h : body (n + 1) alternatives pieces
      ⟨'(' :: '?' :: (flags ++ ':' :: (source ++ ')' :: cs)), o, names⟩ = .ok r) :
    body n alternatives (.expr e :: pieces) ⟨cs, o, names⟩ = .ok r := by
  rw [body, bind_apply, skipSpace_apply ho, ok_bind] at h
  change (openGroup >>= afterOpening n o alternatives pieces) _ = _ at h
  rw [bind_apply] at h
  obtain ⟨p, hp, h⟩ := bind_eq_ok.1 h
  obtain ⟨o', ho', rfl⟩ := openGroup_quiet hflags ho hp
  obtain ⟨q, hq, h⟩ := bind_eq_ok.1 h
  obtain rfl := hsource n hn o' ho' names _ q (.inr ⟨cs, rfl⟩) hq
  exact h

theorem ReadsAs.group {flags : List Char} (hflags : ∀ c ∈ flags, isQuiet c) {source : List Char} {e : Expr}
    (h : ReadsAs source e) : ReadsAs ('(' :: '?' :: (flags ++ ':' :: (source ++ [')']))) e := by
  intro n hn o ho names rest r hrest hr
  simp only [List.length_cons, List.length_append] at hn
  obtain ⟨n, rfl⟩ : ∃ m, n = m + 2 := ⟨n - 2, by omega⟩
  rw [List.cons_append, List.cons_append, List.append_assoc, List.cons_append, List.append_assoc,
    List.singleton_append] at hr
  have hread := body_group hflags ho h (by omega) hr
  rw [body_end ho hrest] at hread
  exact (Except.ok.inj hread).symm

theorem ReadsAs.withFlags {flags : String} (hflags : ∀ c ∈ flags.toList, isQuiet c) {source : String} {e : Expr}
    (h : ReadsAs source.toList e) : ReadsAs (Pattern.withFlags flags source).toList e := by
  unfold Pattern.withFlags
  split
  · exact h
  · have hlist : (s!"(?{flags}:{source})").toList =
        '(' :: '?' :: (flags.toList ++ ':' :: (source.toList ++ [')'])) := by
      simp [toString, String.toList_append]
    rw [hlist]
    exact h.group hflags

end Reader

end GrammarKit.Regex

namespace GrammarKit

open Regex Regex.Reader

namespace Matcher

variable {t : Terminal} {globalFlags : String} {m : Matcher}

/-- A literal without the switches `i` and `x` is matched as the text that it is. -/
theorem ofExprs_of_literal {text flags : String} (h : ofTerminal t globalFlags = .ok m)
    (ht : t.pattern = .literal text flags) (hflags : ∀ c ∈ flags.toList, isQuiet c)
    (hglobal : ∀ c ∈ globalFlags.toList, isQuiet c) :
    m = .ofExprs (.seq (.look .textStart) (.text text.toList))
      (.seq (.seq (.look .textStart) (.text text.toList)) (.look .textEnd)) m.minWidth m.maxWidth := by
  obtain ⟨source, e, hsource, he, hm⟩ := ofExprs_of_ofTerminal h
  rw [ht] at hsource
  cases hsource
  have hreads := ((readsAs_escapeText text).withFlags hflags).withFlags hglobal
  obtain rfl := hreads.read he
  exact hm

theorem matchesWhole_literal {text flags : String} (h : ofTerminal t globalFlags = .ok m)
    (ht : t.pattern = .literal text flags) (hflags : ∀ c ∈ flags.toList, isQuiet c)
    (hglobal : ∀ c ∈ globalFlags.toList, isQuiet c) {v : List Char} :
    m.matchesWhole v = true ↔ v = text.toList := by
  have hends : (Expr.seq (.look .textStart) (.text text.toList)).ends (.start v) =
      if text.toList <+: v then [(Place.start v).over text.toList] else [] := by
    show firstPlaces ((Place.start v :: []).flatMap (Expr.text text.toList).ends) = _
    rw [List.flatMap_singleton, Expr.ends_text]
    change firstPlaces (if text.toList <+: v then _ else _) = _
    split <;> rfl
  rw [ofExprs_of_literal h ht hflags hglobal, ofExprs, Expr.isSome_matchLength?_textEnd, hends]
  constructor
  · rintro ⟨q, hq, hindex⟩
    split at hq
    · rename_i hstarts
      obtain rfl := List.mem_singleton.1 hq
      refine (hstarts.eq_of_length ?_).symm
      simpa [Place.over, Place.start] using hindex
    · cases hq
  · rintro rfl
    rw [if_pos (List.prefix_refl _)]
    exact ⟨_, List.mem_singleton_self _, by simp [Place.over, Place.start]⟩

end Matcher

/-- Literals without the switches `i` and `x` match their own text only. -/
def Engine.ReadsLiterals (engine : Engine) : Prop :=
  ∀ (t : Terminal) (globalFlags : String) (m : Matcher) (text flags : String), engine t globalFlags = .ok m →
    t.pattern = .literal text flags → (∀ c ∈ flags.toList, isQuiet c) → (∀ c ∈ globalFlags.toList, isQuiet c) →
      ∀ v, m.matchesWhole v = true ↔ v = text.toList

theorem Matcher.readsLiterals_ofTerminal : Engine.ReadsLiterals ofTerminal :=
  fun _ _ _ _ _ h ht hflags hglobal _ => matchesWhole_literal h ht hflags hglobal

end GrammarKit
