/-
Two ways to find a place in a text. A line table knows where the lines of a text start and looks for the last start that
is not behind an offset; a position is moved over the characters before the offset, and starts a line anew behind every
line break. They agree at every place between two characters, since the starts up to such a place are those that the
position has come by.

A position may be moved over several characters at once: only the line breaks among them and the characters behind the
last one count. So it does not matter into which pieces a text is cut.
-/
import GrammarKit.Proofs.Text.Offsets
import GrammarKit.Text.Lines
import Mathlib.Data.List.DropRight

namespace GrammarKit

/-! ## Starts of lines -/

namespace LineTable

theorem startsAfter_append (ds : List Char) : ∀ (offset : Nat) (cs : List Char),
    startsAfter offset (cs ++ ds) = startsAfter offset cs ++ startsAfter (offset + Text.bytes cs) ds
  | offset, [] => rfl
  | offset, c :: cs => by
    rw [List.cons_append, startsAfter, startsAfter, startsAfter_append ds _ cs, Text.bytes, Nat.add_assoc]
    split <;> rfl

/-- Lines start behind the offset at which the text begins, and not behind its end. -/
theorem bounds_of_mem_startsAfter {start : Nat} : ∀ {offset : Nat} {cs : List Char}, start ∈ startsAfter offset cs →
    offset < start ∧ start ≤ offset + Text.bytes cs
  | _, [], h => nomatch h
  | offset, c :: cs, h => by
    have hsize := c.utf8Size_pos
    have hlater : start ∈ startsAfter (offset + c.utf8Size) cs →
        offset < start ∧ start ≤ offset + Text.bytes (c :: cs) := fun h => by
      have := bounds_of_mem_startsAfter h
      rw [Text.bytes]
      omega
    rw [startsAfter] at h
    split at h
    · rcases List.mem_cons.1 h with rfl | h
      · rw [Text.bytes]
        omega
      · exact hlater h
    · exact hlater h

theorem pairwise_startsAfter : ∀ (offset : Nat) (cs : List Char), (startsAfter offset cs).Pairwise (· < ·)
  | _, [] => .nil
  | offset, c :: cs => by
    have ih := pairwise_startsAfter (offset + c.utf8Size) cs
    rw [startsAfter]
    split
    · exact List.pairwise_cons.2 ⟨fun start h => (bounds_of_mem_startsAfter h).1, ih⟩
    · exact ih

/-- The starts are in ascending order. -/
theorem pairwise_starts (text : List Char) : (ofText text).starts.Pairwise (· < ·) :=
  List.pairwise_cons.2 ⟨fun _ h => (bounds_of_mem_startsAfter h).1, pairwise_startsAfter 0 text⟩

/-- The starts up to a place are those of the lines before it. -/
theorem takeWhile_starts (before rest : List Char) :
    (ofText (before ++ rest)).starts.takeWhile (· ≤ Text.bytes before) = 0 :: startsAfter 0 before := by
  have hbefore : ∀ start ∈ startsAfter 0 before, decide (start ≤ Text.bytes before) = true := fun start h =>
    decide_eq_true (by simpa using (bounds_of_mem_startsAfter h).2)
  have hrest : (startsAfter (0 + Text.bytes before) rest).takeWhile (· ≤ Text.bytes before) = [] := by
    rw [Nat.zero_add, List.takeWhile_eq_nil_iff]
    intro hpos hle
    exact absurd (of_decide_eq_true hle) (Nat.not_le_of_lt (bounds_of_mem_startsAfter (List.getElem_mem hpos)).1)
  have hstarts : (ofText (before ++ rest)).starts =
      0 :: (startsAfter 0 before ++ startsAfter (0 + Text.bytes before) rest) := by
    rw [← startsAfter_append]
    rfl
  rw [hstarts, List.takeWhile_cons, if_pos (decide_eq_true (Nat.zero_le _)), List.takeWhile_append_of_pos hbefore, hrest,
    List.append_nil]

theorem lt_length_takeWhile_iff {starts : List Nat} (h : starts.Pairwise (· < ·)) (offset : Nat) : ∀ {k : Nat}
    (hk : k < starts.length), k < (starts.takeWhile (· ≤ offset)).length ↔ starts[k] ≤ offset := by
  induction h with
  | nil => exact fun hk => absurd hk (Nat.not_lt_zero _)
  | @cons first starts hfirst _ ih =>
    intro k hk
    by_cases hle : first ≤ offset
    · rw [List.takeWhile_cons, if_pos (decide_eq_true hle)]
      cases k with
      | zero => simpa using hle
      | succ k => simpa using ih (by simpa using hk)
    · rw [List.takeWhile_cons, if_neg (by simpa using hle)]
      cases k with
      | zero => simpa using hle
      | succ k =>
        have := hfirst _ (List.getElem_mem (Nat.lt_of_succ_lt_succ hk))
        simp only [List.length_nil, Nat.not_lt_zero, List.getElem_cons_succ, false_iff]
        omega

/-- The lines up to the one that is found are those that start no further than the offset, as a search in the ascending
starts finds them. -/
theorem lt_place_iff (text : List Char) (offset : Nat) {k : Nat} (hk : k < (ofText text).starts.length) :
    k < ((ofText text).place offset).1 ↔ (ofText text).starts[k] ≤ offset :=
  lt_length_takeWhile_iff (pairwise_starts text) offset hk

end LineTable

/-! ## Positions -/

namespace Position

theorem after_concat (cs : List Char) (c : Char) : after (cs ++ [c]) = (after cs).advance c := by
  rw [after, feed_append]
  rfl

/-- A position has counted the starts of lines before it, and stands in the line that starts last. -/
theorem after_eq (before : List Char) : (after before).line = (LineTable.startsAfter 0 before).length + 1 ∧
    (after before).lineStart = (0 :: LineTable.startsAfter 0 before).getLastD 0 ∧
    ∃ above inLine, before = above ++ inLine ∧ Text.bytes above = (after before).lineStart ∧
      inLine.length + 1 = (after before).column := by
  induction before using List.reverseRecOn with
  | nil => exact ⟨rfl, rfl, [], [], rfl, rfl, rfl⟩
  | append_singleton before c ih =>
    obtain ⟨hline, hstart, above, inLine, hbefore, habove, hcolumn⟩ := ih
    have hoffset := Text.offset_after before
    have hnext : LineTable.startsAfter (0 + Text.bytes before) [c] =
        if c = '\n' then [Text.bytes before + c.utf8Size] else [] := by
      rw [Nat.zero_add, LineTable.startsAfter]
      split <;> rfl
    rw [after_concat, LineTable.startsAfter_append, hnext, advance]
    split
    · refine ⟨?_, ?_, before ++ [c], [], (List.append_nil _).symm, ?_, rfl⟩
      · simp [hline]
      · rw [hoffset, List.getLastD_cons, List.getLastD_concat]
      · simp [Text.bytes_append, Text.bytes, hoffset]
    · refine ⟨by simpa using hline, by simpa using hstart, above, inLine ++ [c], ?_, habove, ?_⟩
      · rw [hbefore, List.append_assoc]
      · simp [hcolumn]

/-- The position behind some characters, found at once. -/
def past (p : Position) (cs : List Char) : Position :=
  if cs.count '\n' = 0 then { p with offset := p.offset + Text.bytes cs, column := p.column + cs.length }
  else
    { offset := p.offset + Text.bytes cs
      line := p.line + cs.count '\n'
      column := (cs.rtakeWhile (· != '\n')).length + 1
      lineStart := p.offset + Text.bytes (cs.rdropWhile (· != '\n')) }

theorem feed_eq_past (p : Position) (cs : List Char) : p.feed cs = p.past cs := by
  induction cs using List.reverseRecOn with
  | nil => simp [feed, past, Text.bytes]
  | append_singleton cs c ih =>
    have hfeed : p.feed (cs ++ [c]) = (p.feed cs).advance c := by
      rw [feed_append]
      rfl
    rw [hfeed, ih, advance]
    by_cases hc : c = '\n'
    · subst hc
      have htail : (cs ++ ['\n']).rtakeWhile (· != '\n') = [] := List.rtakeWhile_concat_neg _ _ _ (by simp)
      have habove : (cs ++ ['\n']).rdropWhile (· != '\n') = cs ++ ['\n'] :=
        List.rdropWhile_concat_neg _ _ _ (by simp)
      have hcount : (cs ++ ['\n']).count '\n' = cs.count '\n' + 1 := by simp
      rw [past, past, htail, habove, hcount, if_pos rfl, if_neg (Nat.succ_ne_zero _)]
      split <;> simp [Text.bytes_append, Text.bytes, Nat.add_assoc, *]
    · have htail : (cs ++ [c]).rtakeWhile (· != '\n') = cs.rtakeWhile (· != '\n') ++ [c] :=
        List.rtakeWhile_concat_pos _ _ _ (by simpa using hc)
      have habove : (cs ++ [c]).rdropWhile (· != '\n') = cs.rdropWhile (· != '\n') :=
        List.rdropWhile_concat_pos _ _ _ (by simpa using hc)
      have hcount : (cs ++ [c]).count '\n' = cs.count '\n' := by simp [hc]
      rw [past, past, htail, habove, hcount, if_neg hc]
      split <;> simp [Text.bytes_append, Text.bytes, Nat.add_assoc]

end Position

/-! ## Spans -/

namespace LineTable

/-- At a place between two characters a line table finds the line and column of the position there. -/
theorem place_ofText (before rest : List Char) : (ofText (before ++ rest)).place (Text.bytes before) =
    ((Position.after before).line, (Position.after before).column) := by
  obtain ⟨hline, hstart, above, inLine, rfl, habove, hcolumn⟩ := Position.after_eq before
  have hcut : Text.cut3? (above ++ inLine ++ rest) (Text.bytes above) (Text.bytes (above ++ inLine)) =
      some (above, inLine, rest) := by
    rw [List.append_assoc, Text.bytes_append]
    exact Text.cut3?_append ..
  have htext : (ofText (above ++ inLine ++ rest)).text = above ++ inLine ++ rest := rfl
  rw [place, takeWhile_starts, ← hstart, ← habove, htext, hcut, ← hcolumn, hline, List.length_cons]

/-- The span of a stretch is that of its characters after those before it. -/
theorem span_ofText (before inside after : List Char) :
    (ofText (before ++ (inside ++ after))).span (Text.bytes before) (Text.bytes before + Text.bytes inside) =
      (Position.after before).spanOf inside := by
  have hstop := place_ofText (before ++ inside) after
  rw [List.append_assoc, Text.bytes_append] at hstop
  have hfeed : (Position.after before).feed inside = .after (before ++ inside) := (Position.feed_append ..).symm
  rw [span, place_ofText, hstop, Position.spanOf, hfeed, Position.spanTo, Text.offset_after, Text.offset_after,
    Text.bytes_append]

end LineTable

/-- Between two places of a text there is a stretch of it. -/
theorem Text.exists_stretch {text : List Char} {i j : Nat} (hij : i ≤ j) (hi : (positionAt? text i).isSome)
    (hj : (positionAt? text j).isSome) : ∃ before inside after, text = before ++ (inside ++ after) ∧ bytes before = i ∧
      bytes before + bytes inside = j := by
  rw [positionAt?, Option.isSome_map, Option.isSome_iff_exists] at hi hj
  obtain ⟨⟨before, rest⟩, hi⟩ := hi
  obtain ⟨⟨upTo, after⟩, hj⟩ := hj
  obtain ⟨htext, rfl⟩ := append_of_cutAt? hi
  obtain ⟨htext', rfl⟩ := append_of_cutAt? hj
  rcases List.append_eq_append_iff.1 (htext.symm.trans htext') with ⟨inside, rfl, rfl⟩ | ⟨inside, rfl, rfl⟩
  · exact ⟨before, inside, after, htext, rfl, (bytes_append ..).symm⟩
  · -- the first place is no further than the second one, so nothing is between them
    have hnil : inside = [] := by
      by_contra hne
      have := bytes_pos hne
      rw [bytes_append] at hij
      omega
    subst hnil
    exact ⟨upTo, [], rest, by simpa using htext, by simp, by simp [bytes]⟩

/-- The spans that are looked up in a line table are those that are counted. The line that is looked up for an offset
is the one up to which all lines start no further than the offset, and the lines start one behind the other. What is
counted does not depend on the pieces that a text is cut into, and a whole piece can be counted at once. -/
theorem LineTable.span_eq_counted (text : List Char) :
    (∀ i j, i ≤ j → (Text.positionAt? text i).isSome → (Text.positionAt? text j).isSome →
      Text.span? text i j = some ((ofText text).span i j)) ∧
    ((ofText text).starts.Pairwise (· < ·) ∧ ∀ offset k (hk : k < (ofText text).starts.length),
      k < ((ofText text).place offset).1 ↔ (ofText text).starts[k] ≤ offset) ∧
    ∀ (p : Position) (cs ds : List Char), (p.feed cs).feed ds = p.feed (cs ++ ds) ∧ p.feed cs = p.past cs := by
  refine ⟨fun i j hij hi hj => ?_, ⟨pairwise_starts text, fun offset k hk => lt_place_iff text offset hk⟩,
    fun p cs ds => ⟨(p.feed_append cs ds).symm, p.feed_eq_past cs⟩⟩
  obtain ⟨before, inside, after, rfl, rfl, rfl⟩ := Text.exists_stretch hij hi hj
  rw [Text.span?_append, span_ofText]

/-- A stretch that ends behind a character of two bytes, on a line of its own. -/
theorem LineTable.span_eq_counted_secondLine :
    (Text.positionAt? ['a', 'b', '\n', 'c', 'é', '\n', 'd'] 3).isSome ∧
    (Text.positionAt? ['a', 'b', '\n', 'c', 'é', '\n', 'd'] 6).isSome ∧
    Text.span? ['a', 'b', '\n', 'c', 'é', '\n', 'd'] 3 6 = some ⟨3, 2, 1, 6, 2, 3⟩ ∧
    (ofText ['a', 'b', '\n', 'c', 'é', '\n', 'd']).span 3 6 = ⟨3, 2, 1, 6, 2, 3⟩ := by
  have hi : (Text.positionAt? ['a', 'b', '\n', 'c', 'é', '\n', 'd'] 3).isSome := by decide
  have hj : (Text.positionAt? ['a', 'b', '\n', 'c', 'é', '\n', 'd'] 6).isSome := by decide
  have hspan : Text.span? ['a', 'b', '\n', 'c', 'é', '\n', 'd'] 3 6 = some ⟨3, 2, 1, 6, 2, 3⟩ := by decide
  exact ⟨hi, hj, hspan, Option.some.inj (((span_eq_counted _).1 3 6 (by decide) hi hj).symm.trans hspan)⟩

end GrammarKit
