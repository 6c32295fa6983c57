/-
Byte offsets of texts. The characters before an offset are found again at it, and so are those between two offsets. A
position moves on by the bytes of the characters that it is fed.
-/
import GrammarKit.Text.Position

namespace GrammarKit.Text

theorem bytes_append : ∀ cs ds : List Char, bytes (cs ++ ds) = bytes cs + bytes ds
  | [], ds => by rw [List.nil_append, bytes, Nat.zero_add]
  | c :: cs, ds => by rw [List.cons_append, bytes, bytes, bytes_append cs ds, Nat.add_assoc]

theorem cutAt?_append : ∀ cs ds : List Char, cutAt? (bytes cs) (cs ++ ds) = some (cs, ds)
  | [], ds => by rw [List.nil_append, bytes, cutAt?]
  | c :: cs, ds => by
    obtain ⟨n, hn⟩ : ∃ n, bytes (c :: cs) = n + 1 :=
      ⟨bytes (c :: cs) - 1, by have := c.utf8Size_pos; rw [bytes]; omega⟩
    have hrest : n + 1 - c.utf8Size = bytes cs := by rw [← hn, bytes, Nat.add_sub_cancel_left]
    have hle : c.utf8Size ≤ n + 1 := by rw [← hn, bytes]; exact Nat.le_add_right ..
    rw [List.cons_append, hn, cutAt?, if_pos hle, hrest, cutAt?_append cs ds]
    rfl

theorem cut3?_append (before inside after : List Char) :
    cut3? (before ++ (inside ++ after)) (bytes before) (bytes before + bytes inside) =
      some (before, inside, after) := by
  have hguard : (guard (bytes before ≤ bytes before + bytes inside) : Option Unit) = some () :=
    if_pos (Nat.le_add_right ..)
  rw [cut3?, hguard]
  simp [cutAt?_append]

/-- The span of a stretch is that of its characters after those before it. -/
theorem span?_append (before inside after : List Char) :
    span? (before ++ (inside ++ after)) (bytes before) (bytes before + bytes inside) =
      some ((Position.after before).spanOf inside) := by
  rw [span?, cut3?_append]
  rfl

theorem offset_feed (cs : List Char) : ∀ p : Position, (p.feed cs).offset = p.offset + bytes cs := by
  induction cs with
  | nil => exact fun p => rfl
  | cons c cs ih =>
    intro p
    have hadvance : (p.advance c).offset = p.offset + c.utf8Size := by
      unfold Position.advance
      split <;> rfl
    show ((p.advance c).feed cs).offset = _
    rw [ih, hadvance, bytes]
    omega

theorem offset_after (cs : List Char) : (Position.after cs).offset = bytes cs := by
  rw [Position.after, offset_feed, Nat.zero_add]

/-- The span of a stretch begins and ends with it. -/
theorem exists_span? {text before inside after : List Char} (h : text = before ++ (inside ++ after)) :
    ∃ a, span? text (bytes before) (bytes before + bytes inside) = some a ∧ a.start = bytes before ∧
      a.stop = bytes before + bytes inside := by
  refine ⟨(Position.after before).spanOf inside, by rw [h]; exact span?_append .., offset_after before, ?_⟩
  show ((Position.after before).feed inside).offset = _
  rw [offset_feed, offset_after]

theorem bytes_pos {cs : List Char} (h : cs ≠ []) : 0 < bytes cs := by
  cases cs with
  | nil => exact absurd rfl h
  | cons c cs =>
    have := c.utf8Size_pos
    rw [bytes]
    omega

end GrammarKit.Text
