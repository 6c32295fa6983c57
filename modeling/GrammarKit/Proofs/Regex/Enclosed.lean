/-
Reading a pattern that stands in a group. Behind such a pattern come the parenthesis that closes the group and
whatever follows it. Where the pattern can be read by itself, the characters behind it make no difference: every
decision looks at a character of the pattern, or at its end, where a closing parenthesis is as good as nothing. Only
a comment without a line end goes on behind the pattern, and then the group is never closed. So both readings agree
wherever both succeed.
-/
import GrammarKit.Proofs.Outcome
import GrammarKit.Regex.Reader
import Mathlib.Data.List.TakeWhile

/-! ## The closing parenthesis -/

namespace GrammarKit.Unicode

theorem first_of_mem_close {start count : Nat} {label : List Char} {r : Run}
    (h : r ∈ readEntries.close start count label) : r.first = start := by
  unfold readEntries.close at h
  split at h
  · cases h
  · rw [List.mem_singleton.1 h]

theorem le_first_of_mem_readEntries {r : Run} : ∀ (cs : List Char) {start count : Nat} {label : List Char},
    r ∈ readEntries start count label cs → start ≤ r.first
  | [], _, _, _, h => (first_of_mem_close h).ge
  | c :: cs, start, count, label, h => by
    unfold readEntries at h
    split at h
    · dsimp only at h
      split at h
      · exact le_first_of_mem_readEntries cs h
      · rcases List.mem_append.1 h with h | h
        · exact (first_of_mem_close h).ge
        · exact (Nat.le_add_right ..).trans (le_first_of_mem_readEntries cs h)
    · exact le_first_of_mem_readEntries cs h

theorem toList_categoryTable : ∃ rest, categoryTable.toList =
    "32Cc1Zs3Po1Sc3Po1Ps1Pe1".toList ++ rest := by
  simp only [categoryTable, String.join, List.foldl_cons, List.foldl_nil, String.toList_append, List.append_assoc]
  exact ⟨_, rfl⟩

theorem categoryRuns_eq : ∃ rest, categoryRuns =
    [⟨0, 31, "Cc"⟩, ⟨32, 32, "Zs"⟩, ⟨33, 35, "Po"⟩, ⟨36, 36, "Sc"⟩, ⟨37, 39, "Po"⟩, ⟨40, 40, "Ps"⟩, ⟨41, 41, "Pe"⟩] ++
      readEntries 42 1 [] rest := by
  obtain ⟨rest, hrest⟩ := toList_categoryTable
  exact ⟨rest, (congrArg (readEntries 0 0 []) hrest).trans rfl⟩

/-- The category of the closing parenthesis. -/
theorem label_of_covers_closing {r : Run} (hr : r ∈ categoryRuns) (hfirst : r.first ≤ 41) (hlast : 41 ≤ r.last) :
    r.label = "Pe" := by
  obtain ⟨rest, hruns⟩ := categoryRuns_eq
  rw [hruns] at hr
  rcases List.mem_append.1 hr with hr | hr
  · revert hfirst hlast
    simp only [List.mem_cons, List.not_mem_nil, or_false] at hr
    rcases hr with rfl | rfl | rfl | rfl | rfl | rfl | rfl <;> decide
  · have := le_first_of_mem_readEntries _ hr
    omega

theorem blank_closing {r : Nat × Nat} (hr : r ∈ blank) : ¬ (r.1 ≤ 41 ∧ 41 ≤ r.2) := by
  rintro ⟨hfirst, hlast⟩
  rcases List.mem_append.1 hr with hr | hr
  · obtain ⟨run, hrun, hkept⟩ := List.mem_filterMap.1 hr
    obtain ⟨hlabel, heq⟩ := Option.ite_none_right_eq_some.1 hkept
    obtain rfl := Option.some.inj heq
    rw [label_of_covers_closing hrun hfirst hlast] at hlabel
    simp at hlabel
  · revert hfirst hlast
    simp only [List.mem_cons, List.not_mem_nil, or_false] at hr
    rcases hr with rfl | rfl <;> decide

end GrammarKit.Unicode

namespace GrammarKit.Regex

namespace CharSet

variable {n : Nat}

/-- What a joined range covers is covered by one of its parts. -/
theorem exists_of_mem_go : ∀ (rs : List (Nat × Nat)) (r : Nat × Nat),
    (∃ q ∈ join.go r rs, q.1 ≤ n ∧ n ≤ q.2) → ∃ q ∈ r :: rs, q.1 ≤ n ∧ n ≤ q.2
  | [], _, h => h
  | s :: rest, r, h => by
    unfold join.go at h
    split at h
    · rename_i hnear
      obtain ⟨q, hq, hn⟩ := exists_of_mem_go rest _ h
      rcases List.mem_cons.1 hq with rfl | hq
      · rcases Nat.lt_or_ge r.2 n with hlt | hle
        · exact ⟨s, by simp, by omega, by omega⟩
        · exact ⟨r, by simp, hn.1, hle⟩
      · exact ⟨q, by simp [hq], hn⟩
    · obtain ⟨q, hq, hn⟩ := h
      rcases List.mem_cons.1 hq with rfl | hq
      · exact ⟨q, by simp, hn⟩
      · obtain ⟨q, hq, hn⟩ := exists_of_mem_go rest s ⟨q, hq, hn⟩
        exact ⟨q, .tail _ hq, hn⟩

theorem exists_of_contains_ofRanges {rs : List (Nat × Nat)} {c : Char} (h : (ofRanges rs).contains c = true) :
    ∃ r ∈ rs, r.1 ≤ c.toNat ∧ c.toNat ≤ r.2 := by
  obtain ⟨q, hq, hc⟩ := List.any_eq_true.1 h
  have hjoin : ∀ qs, (∃ q ∈ join qs, q.1 ≤ c.toNat ∧ c.toNat ≤ q.2) → ∃ q ∈ qs, q.1 ≤ c.toNat ∧ c.toNat ≤ q.2
    | [], h => h
    | q :: qs, h => exists_of_mem_go qs q h
  obtain ⟨q, hq, hc⟩ := hjoin _ ⟨q, hq, by simpa using hc⟩
  obtain ⟨r, hr, hq⟩ := List.mem_flatMap.1 (List.mem_mergeSort.1 hq)
  refine ⟨r, hr, ?_⟩
  simp only [scalars, List.mem_filter, List.mem_cons, List.not_mem_nil, or_false] at hq
  obtain ⟨rfl | rfl, -⟩ := hq <;> omega

end CharSet

/-- The closing parenthesis is no white space. -/
theorem Reader.blanks_closing : blanks.contains ')' = false := by
  rw [Bool.eq_false_iff]
  intro h
  obtain ⟨r, hr, hc⟩ := CharSet.exists_of_contains_ofRanges h
  exact Unicode.blank_closing hr hc

/-! ## Texts that go on -/

/-- Where a group or the whole source ends. -/
def Ended (rest : List Char) : Prop := rest = [] ∨ ∃ after, rest = ')' :: after

/-- What can stand behind a pattern: nothing, or a parenthesis with other characters after it, none of which ends a
comment or a name. -/
structure Tail (tail : List Char) : Prop where
  ended : Ended tail
  noLineEnd : '\n' ∉ tail
  noColon : ':' ∉ tail

theorem Tail.nil : Tail [] := ⟨.inl rfl, List.not_mem_nil, List.not_mem_nil⟩

theorem Tail.dropWhile_append (htail : Tail tail) {p : Char → Bool} (hp : p ')' = false) (cs : List Char) :
    (cs ++ tail).dropWhile p = cs.dropWhile p ++ tail := by
  induction cs with
  | nil =>
    obtain rfl | ⟨after, rfl⟩ := htail.ended
    · rfl
    · exact List.dropWhile_cons_of_neg (by simp [hp])
  | cons c cs ih =>
    rw [List.cons_append, List.dropWhile_cons, List.dropWhile_cons, ih]
    split <;> rfl

theorem Tail.takeWhile_append (htail : Tail tail) {p : Char → Bool} (hp : p ')' = false) (cs : List Char) :
    (cs ++ tail).takeWhile p = cs.takeWhile p := by
  induction cs with
  | nil =>
    obtain rfl | ⟨after, rfl⟩ := htail.ended
    · rfl
    · exact List.takeWhile_cons_of_neg (by simp [hp])
  | cons c cs ih => rw [List.cons_append, List.takeWhile_cons, List.takeWhile_cons, ih]

/-- A word without a closing parenthesis does not begin in a text and end behind it. -/
theorem Tail.isPrefixOf_append (htail : Tail tail) {word : List Char} (hword : ')' ∉ word) (cs : List Char) :
    word.isPrefixOf (cs ++ tail) = word.isPrefixOf cs := by
  rw [Bool.eq_iff_iff, List.isPrefixOf_iff_prefix, List.isPrefixOf_iff_prefix]
  refine ⟨fun h => ?_, fun h => h.trans (List.prefix_append ..)⟩
  rcases List.prefix_or_prefix_of_prefix h (List.prefix_append cs tail) with h' | ⟨more, rfl⟩
  · exact h'
  · rw [List.prefix_append_right_inj] at h
    cases more with
    | nil => simp
    | cons c more =>
      obtain rfl | ⟨after, rfl⟩ := htail.ended
      · exact absurd h.length_le (by simp)
      · obtain rfl := (List.cons_prefix_cons.1 h).1
        exact absurd (by simp) hword

/-- The name of a class ends in the text or nowhere. -/
theorem Tail.cut_colon (htail : Tail tail) (cs : List Char) :
    cs.dropWhile (· != ':') = [] ∧ (cs ++ tail).dropWhile (· != ':') = [] ∨
      (∃ after, cs.dropWhile (· != ':') = ':' :: after ∧ (cs ++ tail).dropWhile (· != ':') = ':' :: (after ++ tail)) ∧
        (cs ++ tail).takeWhile (· != ':') = cs.takeWhile (· != ':') := by
  induction cs with
  | nil =>
    refine .inl ⟨rfl, List.dropWhile_eq_nil_iff.2 fun c hc => bne_iff_ne.2 ?_⟩
    rintro rfl
    exact htail.noColon hc
  | cons c cs ih =>
    rw [List.cons_append]
    rcases eq_or_ne c ':' with rfl | hc
    · exact .inr ⟨⟨cs, rfl, rfl⟩, rfl⟩
    · have hgo : (c != ':') = true := bne_iff_ne.2 hc
      simp only [List.dropWhile_cons, List.takeWhile_cons, hgo, if_true]
      exact ih.imp_right fun ⟨hdrop, htake⟩ => ⟨hdrop, congrArg (c :: ·) htake⟩

theorem Tail.head?_append (htail : Tail tail) {c : Char} (hc : c ≠ ')') (cs : List Char) :
    ((cs ++ tail).head? == some c) = (cs.head? == some c) := by
  cases cs with
  | nil =>
    obtain rfl | ⟨after, rfl⟩ := htail.ended
    · rfl
    · simpa using hc.symm
  | cons d cs => rfl

/-- The same place in a text that goes on after its end. -/
def Reading.followed (s : Reading) (tail : List Char) : Reading := { s with rest := s.rest ++ tail }

@[simp] theorem Reading.followed_nil (s : Reading) : s.followed [] = s := by
  simp [followed]

namespace Reader

variable {α β : Type} {tail : List Char} {s : Reading} {r r' : Reader α} {f f' : α → Reader β}

theorem bind_apply (r : Reader α) (f : α → Reader β) (s : Reading) : (r >>= f) s = (r s >>= fun p => f p.1 p.2) := rfl

/-- Where two readers both succeed, one on a text and the other on the text with something behind, they read the same,
and what is behind is still there or was lost in a comment. -/
def Alike (tail : List Char) (s : Reading) (r r' : Reader α) : Prop :=
  ∀ p p', r s = .ok p → r' (s.followed tail) = .ok p' → p'.1 = p.1 ∧ (p'.2 = p.2.followed tail ∨ p'.2 = p.2)

/-! ## Steps that are alike -/

namespace Alike

theorem pure (a : α) : Alike tail s (pure a) (pure a) := by
  rintro _ _ ⟨⟩ ⟨⟩
  exact ⟨rfl, .inl rfl⟩

theorem throw (fault : Fault) : Alike tail s (throw fault) r := fun _ _ h => nomatch h

theorem throw_right (fault : Fault) : Alike tail s r (MonadExcept.throw fault) := fun _ _ _ h => nomatch h

theorem throw_bind (fault : Fault) {g : β → Reader α} : Alike tail s (MonadExcept.throw fault >>= g) r :=
  fun _ _ h => nomatch h

theorem bind (htail : Tail tail) (h : Alike tail s r r')
    (hf : ∀ a t tail, Tail tail → r s = .ok (a, t) → Alike tail t (f a) (f' a)) :
    Alike tail s (r >>= f) (r' >>= f') := by
  intro p p' hp hp'
  obtain ⟨⟨a, t⟩, hr, hp⟩ := bind_eq_ok.1 hp
  obtain ⟨⟨a', t'⟩, hr', hp'⟩ := bind_eq_ok.1 hp'
  obtain ⟨ha, ht⟩ := h _ _ hr hr'
  dsimp only at ha ht hp hp'
  subst ha
  rcases ht with rfl | rfl
  · exact hf a' t tail htail hr p p' hp hp'
  · have hnil := hf a' t' [] Tail.nil hr p p' hp (by rwa [Reading.followed_nil])
    rw [Reading.followed_nil, or_self] at hnil
    exact ⟨hnil.1, .inr hnil.2⟩

theorem ite {c : Prop} [Decidable c] {a a' b b' : Reader α} (ha : Alike tail s a a') (hb : Alike tail s b b') :
    Alike tail s (if c then a else b) (if c then a' else b') := by
  split
  · exact ha
  · exact hb

theorem forIn {γ : Type} {g g' : γ → β → Reader (ForInStep β)} : ∀ {xs : List γ} {b : β} {tail : List Char} {s : Reading},
    Tail tail → (∀ x ∈ xs, ∀ b tail s, Tail tail → Alike tail s (g x b) (g' x b)) →
      Alike tail s (ForIn.forIn xs b g) (ForIn.forIn xs b g')
  | [], b, _, _, _, _ => .pure b
  | x :: xs, b, _, _, htail, h => by
    rw [List.forIn_cons, List.forIn_cons]
    refine .bind htail (h x (.head xs) b _ _ htail) fun step t tail htail _ => ?_
    cases step with
    | done b => exact .pure b
    | yield b => exact forIn htail fun x hx => h x (.tail _ hx)

theorem throw_bind_right (fault : Fault) {g : β → Reader α} : Alike tail s r (MonadExcept.throw fault >>= g) :=
  fun _ _ _ h => nomatch h

theorem modify {m : Reading → Reading} {g g' : Unit → Reader α} (hm : m (s.followed tail) = (m s).followed tail)
    (h : Alike tail (m s) (g ()) (g' ())) : Alike tail s ((modify m : Reader Unit) >>= g) ((modify m : Reader Unit) >>= g') := by
  intro p p' hp hp'
  exact h p p' hp (hm ▸ hp')

theorem get {g g' : Reading → Reader α} (h : Alike tail s (g s) (g' (s.followed tail))) :
    Alike tail s (MonadState.get >>= g) (MonadState.get >>= g') := h

/-- A character that is asked for is there in both texts. -/
theorem next {fault : Fault} {g g' : Char → Reader α} (h : ∀ c cs, s.rest = c :: cs → Alike tail s (g c) (g' c)) :
    Alike tail s (Reader.next fault >>= g) (Reader.next fault >>= g') := by
  obtain ⟨rest, o, names⟩ := s
  cases rest with
  | nil => exact .throw_bind fault
  | cons c cs => exact h c cs rfl

/-- The end of a text is as good as a closing parenthesis. -/
theorem peek (htail : Tail tail) {g g' : Option Char → Reader α} (hend : s.rest = [] → Alike tail s (g none) (g' none))
    (hclosing : g' (some ')') = g' none) (h : ∀ c cs, s.rest = c :: cs → Alike tail s (g (some c)) (g' (some c))) :
    Alike tail s (Reader.peek >>= g) (Reader.peek >>= g') := by
  obtain ⟨rest, o, names⟩ := s
  cases rest with
  | nil =>
    have hgoal := hend rfl
    obtain rfl | ⟨after, rfl⟩ := htail.ended
    · exact hgoal
    · rwa [← hclosing] at hgoal
  | cons c cs => exact h c cs rfl

theorem bump {g g' : Unit → Reader α} {c : Char} {cs : List Char} (hs : s.rest = c :: cs)
    (h : Alike tail { s with rest := cs } (g ()) (g' ())) : Alike tail s (Reader.bump >>= g) (Reader.bump >>= g') := by
  obtain ⟨rest, o, names⟩ := s
  obtain rfl : rest = c :: cs := hs
  exact h

end Alike

/-! ## Space and comments -/

theorem dropSpace_tail (htail : Tail tail) : dropSpace false tail = tail := by
  obtain rfl | ⟨after, rfl⟩ := htail.ended
  · rfl
  · rw [dropSpace, if_neg Bool.false_ne_true, blanks_closing, if_neg Bool.false_ne_true]
    rfl

theorem dropSpace_comment {cs : List Char} (h : '\n' ∉ cs) : dropSpace true cs = [] := by
  induction cs with
  | nil => rfl
  | cons c cs ih =>
    rw [List.mem_cons, not_or] at h
    have hc : (c != '\n') = true := bne_iff_ne.2 (Ne.symm h.1)
    rw [dropSpace, if_pos rfl, hc, ih h.2]

/-- Space is dropped as it is in the text alone, unless a comment goes on to the end. -/
theorem dropSpace_append (htail : Tail tail) : ∀ (inComment : Bool) (cs : List Char),
    dropSpace inComment (cs ++ tail) = dropSpace inComment cs ++ tail ∨
      dropSpace inComment cs = [] ∧ dropSpace inComment (cs ++ tail) = []
  | false, [] => .inl (dropSpace_tail htail)
  | true, [] => .inr ⟨rfl, dropSpace_comment htail.noLineEnd⟩
  | true, c :: cs => dropSpace_append htail (c != '\n') cs
  | false, c :: cs => by
    rw [List.cons_append, dropSpace, dropSpace, if_neg Bool.false_ne_true, if_neg Bool.false_ne_true]
    split
    · exact dropSpace_append htail false cs
    · split
      · exact dropSpace_append htail true cs
      · exact .inl rfl

theorem length_dropSpace_le : ∀ (inComment : Bool) (cs : List Char), (dropSpace inComment cs).length ≤ cs.length
  | _, [] => Nat.le_refl 0
  | inComment, c :: cs => by
    have hle (b : Bool) : (dropSpace b cs).length ≤ (c :: cs).length :=
      (length_dropSpace_le b cs).trans (Nat.le_succ _)
    rw [dropSpace]
    split
    · exact hle _
    · split
      · exact hle _
      · split
        · exact hle _
        · exact Nat.le_refl _

theorem alike_skipSpace (htail : Tail tail) (s : Reading) : Alike tail s skipSpace skipSpace := by
  rintro p p' ⟨⟩ ⟨⟩
  refine ⟨rfl, ?_⟩
  show (if s.options.spaced then _ else _ : Reading) = Reading.followed (if s.options.spaced then _ else _) tail ∨
    (if s.options.spaced then _ else _ : Reading) = if s.options.spaced then _ else _
  split
  · exact (dropSpace_append htail false s.rest).imp (fun h => by simp [Reading.followed, h])
      fun h => by simp [Reading.followed, h]
  · exact .inl rfl

theorem length_skipSpace_le {u : Unit} {t : Reading} (h : skipSpace s = .ok (u, t)) : t.rest.length ≤ s.rest.length := by
  cases h
  show (if s.options.spaced then _ else _ : Reading).rest.length ≤ _
  split
  · exact length_dropSpace_le ..
  · exact Nat.le_refl _

namespace Alike

variable {g g' : Unit → Reader α}

theorem skipSpace (htail : Tail tail)
    (h : ∀ tail t, Tail tail → t.rest.length ≤ s.rest.length → Alike tail t (g ()) (g' ())) :
    Alike tail s (Reader.skipSpace >>= g) (Reader.skipSpace >>= g') :=
  .bind htail (alike_skipSpace htail s) fun _ t tail htail hs => h tail t htail (length_skipSpace_le hs)

theorem bumpSpace (htail : Tail tail) {c : Char} {cs : List Char} (hs : s.rest = c :: cs)
    (h : ∀ tail t, Tail tail → t.rest.length ≤ cs.length → Alike tail t (g ()) (g' ())) :
    Alike tail s (Reader.bumpSpace >>= g) (Reader.bumpSpace >>= g') := by
  rw [Reader.bumpSpace, bind_assoc, bind_assoc]
  exact .bump hs (.skipSpace htail h)

/-- No character comes next behind the end, whatever is dropped there. -/
theorem bumpSpace_next (htail : Tail tail) {fault : Fault} {k k' : Char → Reader α}
    (h : ∀ tail t c cs, Tail tail → t.rest = c :: cs → Alike tail t (k c) (k' c)) :
    Alike tail s (Reader.bumpSpace >>= fun _ => Reader.next fault >>= k)
      (Reader.bumpSpace >>= fun _ => Reader.next fault >>= k') := by
  cases hs : s.rest with
  | nil =>
    intro p _ hp
    rw [bind_apply] at hp
    obtain ⟨⟨_, rest, o, names⟩, hbump, hp⟩ := bind_eq_ok.1 hp
    have hlen := length_skipSpace_le (s := { s with rest := s.rest.tail }) hbump
    obtain rfl : rest = [] := by simpa [hs] using hlen
    cases hp
  | cons c cs => exact .bumpSpace htail hs fun tail t htail _ => .next fun c cs hs => h tail t c cs htail hs

end Alike

/-! ## Sets and codes -/

theorem alike_finish (negated : Bool) (set : CharSet) : Alike tail s (finish negated set) (finish negated set) := by
  unfold finish
  exact .get (.ite (.throw_bind _) (.pure _))

theorem alike_codeChar (n : Nat) : Alike tail s (codeChar n) (codeChar n) :=
  .ite (.pure _) (.throw _)

theorem alike_hexDigits : ∀ (count value : Nat) {tail : List Char} {s : Reading}, Tail tail →
    Alike tail s (hexDigits count value) (hexDigits count value)
  | 0, value, _, _, _ => .pure value
  | n + 1, value, _, _, htail => by
    rw [hexDigits]
    refine .next fun c cs hs => ?_
    cases hexValue? c with
    | none => exact .throw _
    | some d => exact .bumpSpace htail hs fun _ _ htail _ => alike_hexDigits n _ htail

theorem alike_hexBraced : ∀ (fuel fuel' digits value : Nat) {tail : List Char} {s : Reading}, Tail tail →
    Alike tail s (hexBraced fuel digits value) (hexBraced fuel' digits value)
  | 0, _, _, _, _, _, _ => .throw _
  | _ + 1, 0, _, _, _, _, _ => .throw_right _
  | fuel + 1, fuel' + 1, digits, value, _, _, htail => by
    rw [hexBraced, hexBraced]
    refine .next fun c cs hs => .ite ?_ ?_
    · exact .bump hs (.skipSpace htail fun _ _ htail _ => .ite (.throw _) (.pure _))
    · cases hexValue? c with
      | none => exact .throw _
      | some d => exact .bumpSpace htail hs fun _ _ htail _ => alike_hexBraced fuel fuel' _ _ htail

theorem alike_readHex (htail : Tail tail) {c : Char} {cs : List Char} (hs : s.rest = c :: cs) (digits : Nat) :
    Alike tail s (readHex digits) (readHex digits) := by
  refine .bumpSpace htail hs fun tail t htail _ => .next fun c cs hs => .ite ?_ ?_
  · refine .bumpSpace htail hs fun tail t htail _ => .get (.bind htail (alike_hexBraced _ _ _ _ htail) ?_)
    exact fun n t tail htail _ => .bind htail (alike_codeChar n) fun _ _ _ _ _ => .pure _
  · refine .bind htail (alike_hexDigits _ _ htail) fun n t tail htail _ => ?_
    exact .bind htail (alike_codeChar n) fun _ _ _ _ _ => .pure _

theorem alike_bracedName : ∀ (fuel fuel' : Nat) (seen : List Char) {tail : List Char} {s : Reading}, Tail tail →
    Alike tail s (bracedName fuel seen) (bracedName fuel' seen)
  | 0, _, _, _, _, _ => .throw _
  | _ + 1, 0, _, _, _, _ => .throw_right _
  | fuel + 1, fuel' + 1, seen, _, _, htail => by
    rw [bracedName, bracedName]
    refine .next fun c cs hs => .ite (.bump hs (.pure _)) ?_
    exact .bumpSpace htail hs fun _ _ htail _ => alike_bracedName fuel fuel' _ htail

/-- What is done with the name of a property. -/
theorem alike_property (htail : Tail tail) (negated : Bool) (name : String) :
    let read : Reader Atom := do
      if !(← MonadState.get).options.unicode then MonadExcept.throw .unknownClass
      match property? name with
      | (some ranges, inside) => return .set (← finish (negated != inside) (.ofRanges ranges))
      | (none, _) => MonadExcept.throw .unknownClass
    Alike tail s read read := by
  refine .get (.ite (.throw_bind _) ?_)
  obtain ⟨ranges, inside⟩ := property? name
  cases ranges with
  | none => exact .throw _
  | some ranges => exact .bind htail (alike_finish _ _) fun _ _ _ _ _ => .pure _

theorem alike_readProperty (htail : Tail tail) {c : Char} {cs : List Char} (hs : s.rest = c :: cs) (negated : Bool) :
    Alike tail s (readProperty negated) (readProperty negated) := by
  refine .bumpSpace htail hs fun tail t htail _ => .next fun c cs hs => .ite ?_ (.ite (.throw_bind _) ?_)
  · refine .bumpSpace htail hs fun tail t htail _ => .get (.bind htail (alike_bracedName _ _ _ htail) ?_)
    exact fun name t tail htail _ => alike_property htail negated name
  · exact .bumpSpace htail hs fun tail t htail _ => alike_property htail negated _

theorem alike_readShorthand {c : Char} {cs : List Char} (hs : s.rest = c :: cs) (d : Char) :
    Alike tail s (readShorthand d) (readShorthand d) :=
  .bump hs (.get (.ite (.throw_bind _) (.pure _)))

/-! ## Words -/

theorem alike_take? (htail : Tail tail) {word : String} (hword : ')' ∉ word.toList) :
    Alike tail s (take? word) (take? word) := by
  refine .get ?_
  rw [Reading.followed, htail.isPrefixOf_append hword]
  split
  · rename_i h
    rintro _ _ ⟨⟩ ⟨⟩
    refine ⟨rfl, .inl ?_⟩
    have hle := (List.isPrefixOf_iff_prefix.1 h).length_le
    simp only [Reading.followed]
    rw [List.drop_append_of_le_length (String.length_toList ▸ hle)]
  · exact .pure _

/-! ## Escapes -/

theorem alike_boundaryOf (htail : Tail tail) (ascii : Bool) : Alike tail s (boundaryOf ascii) (boundaryOf ascii) := by
  refine .bind htail (.forIn htail fun (word, cond) hword b tail t htail => ?_) fun found t tail _ _ => ?_
  · have hclosing : ')' ∉ word.toList := by
      simp only [List.mem_cons, List.not_mem_nil, or_false, Prod.mk.injEq] at hword
      rcases hword with ⟨rfl, -⟩ | ⟨rfl, -⟩ | ⟨rfl, -⟩ | ⟨rfl, -⟩ <;> decide
    exact .bind htail (alike_take? htail hclosing) fun b t tail _ _ => .ite (.pure _) (.pure _)
  · obtain ⟨cond, _⟩ := found
    cases cond with
    | none => exact .pure _
    | some cond => exact .pure _

theorem alike_readEscape (htail : Tail tail) {c : Char} {cs : List Char} (hs : s.rest = c :: cs) :
    Alike tail s readEscape readEscape := by
  refine .bump hs (.next fun c cs hs => .ite (.throw_bind _) ?_)
  split
  case h_1 => exact alike_readHex htail hs 2
  case h_2 => exact alike_readHex htail hs 4
  case h_3 => exact alike_readHex htail hs 8
  case h_4 => exact alike_readProperty htail hs false
  case h_5 => exact alike_readProperty htail hs true
  case h_12 =>
    refine .bump hs (.get (.ite (.pure _) ?_))
    split
    case h_9 => exact .bind htail (alike_boundaryOf htail _) fun _ _ _ _ _ => .pure _
    case h_13 => exact .throw _
    all_goals exact .pure _
  all_goals exact alike_readShorthand hs _

/-! ## Classes -/

theorem alike_combine (pending : Option (SetOp × CharSet)) (right : CharSet) :
    Alike tail s (combine pending right) (combine pending right) := by
  unfold combine
  cases pending with
  | none => exact .pure _
  | some pending => exact .get (.pure _)

theorem alike_endpoint (a : Atom) : Alike tail s (endpoint a) (endpoint a) := by
  unfold endpoint
  cases a with
  | literal c byte => exact .get (.ite (.throw_bind _) (.pure _))
  | set _ => exact .throw _
  | look _ => exact .throw _
  | dot => exact .throw _

theorem alike_classAtom (htail : Tail tail) : Alike tail s classAtom classAtom :=
  .next fun _ _ hs => .ite (alike_readEscape htail hs) (.bump hs (.pure _))

/-- A class with a name, once the name and what comes behind it are known. -/
theorem alike_named (htail : Tail tail) (negated : Bool) (after : List Char) (ranges : Option (List (Nat × Nat))) :
    Alike tail s
      (match ':' :: after, ranges with
        | ':' :: ']' :: rest, some ranges => do
          set { s with rest }
          return some (← finish negated (.ofRanges ranges))
        | _, _ => return none : Reader (Option CharSet))
      (match ':' :: (after ++ tail), ranges with
        | ':' :: ']' :: rest, some ranges => do
          set { s with rest }
          return some (← finish negated (.ofRanges ranges))
        | _, _ => return none : Reader (Option CharSet)) := by
  split
  · rename_i rest ranges h
    obtain rfl : after = ']' :: rest := by simpa using h
    have hset : Alike tail s (set { s with rest } : Reader Unit) (set { s with rest := rest ++ tail }) := by
      rintro _ _ ⟨⟩ ⟨⟩
      exact ⟨rfl, .inl rfl⟩
    exact .bind htail hset fun _ t tail htail _ => .bind htail (alike_finish _ _) fun _ _ _ _ _ => .pure _
  · rename_i hnone
    split
    · rename_i rest ranges h
      -- the bracket would be the closing parenthesis
      cases after with
      | nil => obtain rfl | ⟨after, rfl⟩ := htail.ended <;> simp at h
      | cons c after =>
        obtain ⟨rfl, rfl⟩ : c = ']' ∧ after ++ tail = rest := by simpa using h
        exact absurd rfl (hnone after ranges rfl)
    · exact .pure none

theorem alike_asciiClass? (htail : Tail tail) : Alike tail s asciiClass? asciiClass? := by
  refine .get ?_
  rw [Reading.followed]
  split
  · rename_i after hs
    rw [hs]
    have hnegated := htail.head?_append (by decide : '^' ≠ ')') after
    have hbody : (if (after.head? == some '^') = true then (after ++ tail).tail else after ++ tail) =
        (if (after.head? == some '^') = true then after.tail else after) ++ tail := by
      cases after with
      | nil => rfl
      | cons c after => exact (apply_ite (· ++ tail) ..).symm
    split
    · rename_i after' h
      obtain rfl : after ++ tail = after' := by simpa using h
      dsimp only
      rw [hnegated, hbody]
      generalize (if (after.head? == some '^') = true then after.tail else after) = body
      obtain ⟨hnone, hnone'⟩ | ⟨⟨rest, hrest, hrest'⟩, hname⟩ := htail.cut_colon body
      · rw [hnone, hnone']
        exact .pure none
      · rw [hrest, hrest', hname]
        exact alike_named htail _ _ _
    · rename_i h
      exact absurd rfl (h _)
  · rename_i hs
    split
    · rename_i after h
      -- neither the bracket nor the colon is behind the end
      rcases List.append_eq_cons_iff.1 h with ⟨-, h⟩ | ⟨more, hmore, h⟩
      · obtain rfl | ⟨after, rfl⟩ := htail.ended <;> simp at h
      · rcases List.append_eq_cons_iff.1 h.symm with ⟨-, h⟩ | ⟨more, rfl, -⟩
        · exact absurd (by simp [h]) htail.noColon
        · exact absurd hmore (hs more)
    · exact .pure none

/-- The same character comes second, where the closing parenthesis is as good as nothing. -/
theorem Alike.peekSecond (htail : Tail tail) {skipping : Bool} {g g' : Option Char → Reader α} {c : Char} {cs : List Char}
    (hs : s.rest = c :: cs) (h : ∀ d, (skipping = false → d = cs.head?) → Alike tail s (g d) (g' d))
    (hclosing : g' (some ')') = g' none) :
    Alike tail s (Reader.peekSecond skipping >>= g) (Reader.peekSecond skipping >>= g') := by
  have hhead (cs : List Char) : g' (cs ++ tail).head? = g' cs.head? := by
    cases cs with
    | nil =>
      obtain rfl | ⟨after, rfl⟩ := htail.ended
      · rfl
      · exact hclosing
    | cons c cs => rfl
  have hsecond : g' (if skipping && s.options.spaced then dropSpace false (s.rest ++ tail).tail
      else (s.rest ++ tail).tail).head? =
        g' (if skipping && s.options.spaced then dropSpace false s.rest.tail else s.rest.tail).head? := by
    rw [hs, List.cons_append, List.tail_cons, List.tail_cons]
    split
    · rcases dropSpace_append htail false cs with h | ⟨h, h'⟩
      · rw [h, hhead]
      · rw [h, h']
    · exact hhead cs
  have hgoal := h (if skipping && s.options.spaced then dropSpace false s.rest.tail else s.rest.tail).head? (by
    rintro rfl
    rw [hs]
    rfl)
  rwa [← hsecond] at hgoal

theorem alike_classItem (htail : Tail tail) : Alike tail s classItem classItem := by
  refine .bind htail (alike_classAtom htail) fun a t tail htail _ => .skipSpace htail fun tail t htail _ => ?_
  refine .next fun c cs hs => .peekSecond htail hs (fun d _ => .ite ?_ (.bumpSpace htail hs fun tail t htail _ => ?_)) rfl
  · cases a with
    | literal c byte => exact .bind htail (alike_endpoint _) fun _ _ _ _ _ => .pure _
    | set _ => exact .pure _
    | look _ => exact .throw _
    | dot => exact .throw _
  · refine .bind htail (alike_classAtom htail) fun b t tail htail _ => ?_
    refine .bind htail (alike_endpoint _) fun first t tail htail _ => ?_
    exact .bind htail (alike_endpoint _) fun last t tail htail _ => .ite (.throw_bind _) (.pure _)

theorem alike_leadingHyphens : ∀ (fuel fuel' : Nat) (set : CharSet) {tail : List Char} {s : Reading}, Tail tail →
    s.rest.length < fuel → s.rest.length < fuel' →
    Alike tail s (leadingHyphens fuel set) (leadingHyphens fuel' set)
  | fuel + 1, fuel' + 1, set, tail, s, htail, hfuel, hfuel' => by
    rw [leadingHyphens, leadingHyphens]
    refine .next fun c cs hs => .ite (.bumpSpace htail hs fun _ t htail ht => ?_) (.pure _)
    rw [hs, List.length_cons] at hfuel hfuel'
    exact alike_leadingHyphens fuel fuel' _ htail (by omega) (by omega)

theorem alike_next (fault : Fault) : Alike tail s (next fault) (next fault) := by
  obtain ⟨rest, o, names⟩ := s
  cases rest with
  | nil => exact .throw fault
  | cons c cs => exact .pure c

theorem alike_openClass (htail : Tail tail) : Alike tail s openClass openClass := by
  refine .bumpSpace_next htail fun tail t c cs htail hs => ?_
  -- what follows the sign of negation
  have hrest (negated : Bool) {tail : List Char} (t : Reading) (htail : Tail tail) :
      let read : Reader (Bool × CharSet) := do
        let s ← leadingHyphens ((← get).rest.length + 1) .empty
        if s.isEmpty && (← next .unclosedClass) == ']' then
          bumpSpace
          discard (next .unclosedClass)
          return (negated, .single ']')
        return (negated, s)
      Alike tail t read read := by
    have hfuel : t.rest.length < (t.followed tail).rest.length + 1 := by
      simp only [Reading.followed, List.length_append]
      omega
    refine .get (.bind htail (alike_leadingHyphens _ _ _ htail (Nat.lt_succ_self _) hfuel) fun set t tail htail _ => ?_)
    refine .next fun c cs hs => .ite (.bumpSpace htail hs fun tail t htail _ => ?_) (.pure _)
    exact .bind htail (.bind htail (alike_next _) fun _ _ _ _ _ => .pure _) fun _ _ _ _ _ => .pure _
  exact .ite (.bumpSpace htail hs fun tail t htail _ => hrest _ t htail) (hrest _ t htail)

theorem alike_classBody : ∀ (fuel fuel' : Nat) (negated : Bool) (pending : Option (SetOp × CharSet)) (current : CharSet)
    {tail : List Char} {s : Reading}, Tail tail →
    Alike tail s (classBody fuel negated pending current) (classBody fuel' negated pending current)
  | 0, _, _, _, _, _, _, _ => .throw _
  | _ + 1, 0, _, _, _, _, _, _ => .throw_right _
  | fuel + 1, fuel' + 1, negated, pending, current, _, _, htail => by
    rw [classBody, classBody]
    refine .skipSpace htail fun tail t htail _ => .next fun c cs hs => .peekSecond htail hs (fun d hd => ?_) ?_
    · have hoperation (op : SetOp) (c' : Char) (hd : some c' = cs.head?) :
          Alike tail t
            (do bump; bump; let left ← combine pending current; classBody fuel negated (some (op, left)) .empty)
            (do bump; bump; let left ← combine pending current; classBody fuel' negated (some (op, left)) .empty) := by
        obtain ⟨cs', rfl⟩ := List.head?_eq_some_iff.1 hd.symm
        refine .bump hs (.bump rfl (.bind htail (alike_combine _ _) fun left t tail htail _ => ?_))
        exact alike_classBody fuel fuel' _ _ _ htail
      split
      · refine .bind htail (alike_asciiClass? htail) fun set t tail htail _ => ?_
        cases set with
        | some set => exact alike_classBody fuel fuel' _ _ _ htail
        | none =>
          refine .bind htail (alike_openClass htail) fun opening t tail htail _ => ?_
          refine .bind htail (alike_classBody fuel fuel' _ _ _ htail) fun inner t tail htail _ => ?_
          exact alike_classBody fuel fuel' _ _ _ htail
      · exact .bump hs (.bind htail (alike_combine _ _) fun set t tail htail _ => alike_finish _ _)
      · exact hoperation .inter _ (hd rfl)
      · exact hoperation .diff _ (hd rfl)
      · exact hoperation .symmDiff _ (hd rfl)
      · exact .bind htail (alike_classItem htail) fun set t tail htail _ => alike_classBody fuel fuel' _ _ _ htail
    · -- neither of them makes an operation with the character before
      dsimp only
      split
      case h_1 => rfl
      case h_2 => rfl
      case h_6 => split <;> first | rfl | contradiction
      all_goals exact absurd ‹some ')' = _› (by decide)

theorem alike_readClass (htail : Tail tail) : Alike tail s readClass readClass := by
  refine .bind htail (alike_openClass htail) fun opening t tail htail _ => .get ?_
  exact .bind htail (alike_classBody _ _ _ _ _ htail) fun _ _ _ _ _ => .pure _

/-! ## Groups -/

theorem alike_switches : ∀ (fuel fuel' : Nat) (seen : List Char) (o : Options) {tail : List Char} {s : Reading},
    Tail tail → Alike tail s (switches fuel seen o) (switches fuel' seen o)
  | 0, _, _, _, _, _, _ => .throw _
  | _ + 1, 0, _, _, _, _, _ => .throw_right _
  | fuel + 1, fuel' + 1, seen, o, _, _, htail => by
    rw [switches, switches]
    refine .next fun c cs hs => .ite (.ite (.throw_bind _) (.pure _)) (.ite (.throw_bind _) (.ite ?_ ?_))
    · exact .bump hs (alike_switches fuel fuel' _ _ htail)
    · cases applySwitch o (!seen.contains '-') c with
      | none => exact .throw _
      | some o => exact .bump hs (alike_switches fuel fuel' _ _ htail)

theorem alike_groupName : Alike tail s groupName groupName := by
  refine .get ?_
  rw [Reading.followed]
  dsimp only
  rcases (List.takeWhile_prefix (· != '>') (l := s.rest)).length_le.lt_or_eq with hlt | heq
  · -- the name ends in the text
    have hname : (s.rest ++ tail).takeWhile (· != '>') = s.rest.takeWhile (· != '>') := by
      rw [List.takeWhile_append, if_neg hlt.ne]
    have hlt' : (s.rest.takeWhile (· != '>')).length < (s.rest ++ tail).length := by
      rw [List.length_append]
      omega
    rw [hname, List.drop_append_of_le_length hlt, decide_eq_false hlt.ne, decide_eq_false hlt'.ne]
    refine .ite (.throw_bind _) ?_
    rintro _ _ ⟨⟩ ⟨⟩
    exact ⟨rfl, .inl rfl⟩
  · rw [heq, decide_eq_true rfl, Bool.or_true, if_pos rfl]
    exact .throw_bind _

theorem alike_openGroup (htail : Tail tail) {c : Char} {cs : List Char} (hs : s.rest = c :: cs) :
    Alike tail s openGroup openGroup := by
  refine .bump hs (.skipSpace htail fun tail t htail _ => .bind htail (.forIn htail ?_) ?_)
  · refine fun _ _ _ tail t _ => .get ?_
    split
    · exact .throw_bind _
    · split
      · exact .throw_bind_right _
      · exact .pure _
  · refine fun _ t tail htail _ => .get (.bind htail (alike_take? htail (by decide)) fun named t tail htail _ => ?_)
    refine .bind htail (alike_take? htail (by decide)) fun named' t tail htail _ => .ite ?_ ?_
    · exact .bind htail alike_groupName fun _ _ _ _ _ => .pure _
    · refine .bind htail (alike_take? htail (by decide)) fun switched t tail htail _ => .ite ?_ (.pure _)
      refine .get (.bind htail (alike_switches _ _ _ _ htail) fun set t tail htail _ => .next fun c cs hs => ?_)
      exact .bump hs (.ite (.ite (.throw_bind _) (.pure _)) (.pure _))

/-! ## Repetition -/

theorem alike_readCount (htail : Tail tail) : Alike tail s readCount readCount := by
  have hblanks (s : Reading) {tail : List Char} (htail : Tail tail) :
      ({ s.followed tail with rest := (s.followed tail).rest.dropWhile blanks.contains } : Reading) =
        ({ s with rest := s.rest.dropWhile blanks.contains } : Reading).followed tail :=
    congrArg (fun rest => Reading.mk rest s.options s.names) (htail.dropWhile_append blanks_closing s.rest)
  refine .modify (hblanks s htail) (.get ?_)
  generalize ({ s with rest := s.rest.dropWhile blanks.contains } : Reading) = t
  rw [Reading.followed, htail.takeWhile_append (by decide)]
  refine .modify ?_ (.skipSpace htail fun tail t htail _ => .modify (hblanks t htail) ?_)
  · rw [Reading.followed, Reading.followed, List.drop_append_of_le_length (List.takeWhile_prefix _).length_le]
  · exact .ite (.throw_bind _) (.pure _)

theorem alike_readGreed (htail : Tail tail) : Alike tail s readGreed readGreed :=
  .bind htail (alike_take? htail (by decide)) fun _ _ _ _ _ => .get (.pure _)

theorem alike_readBounds (htail : Tail tail) {c : Char} {cs : List Char} (hs : s.rest = c :: cs) :
    Alike tail s readBounds readBounds := by
  refine .bumpSpace htail hs fun tail t htail _ => .bind htail (alike_readCount htail) fun least t tail htail _ => ?_
  -- what follows the counts
  have hclose (bounds : Nat × Option Nat) {tail : List Char} (t : Reading) (htail : Tail tail) :
      let read : Reader (Nat × Option Nat) := do
        if (← next .badCount) != '}' then MonadExcept.throw .badCount
        if bounds.2.any (· < least) then MonadExcept.throw .badCount
        bumpSpace
        return bounds
      Alike tail t read read :=
    .next fun c cs hs => .ite (.throw_bind _) (.ite (.throw_bind _) (.bumpSpace htail hs fun _ _ _ _ => .pure _))
  refine .next fun c cs hs => .ite (.bumpSpace htail hs fun tail t htail _ => .next fun c cs hs => ?_) (hclose _ t htail)
  refine .ite (hclose _ t htail) (.bind htail (alike_readCount htail) fun most t tail htail _ => hclose _ t htail)

/-! ## Expressions -/

theorem alike_literal (c : Char) (byte : Bool) : Alike tail s (literal c byte) (literal c byte) :=
  .get (.ite (.throw_bind _) (.pure _))

theorem alike_ofAtom (a : Atom) : Alike tail s (ofAtom a) (ofAtom a) := by
  cases a with
  | literal c byte => exact alike_literal c byte
  | set _ => exact .pure _
  | look _ => exact .pure _
  | dot => exact .get (.ite (.throw_bind _) (.ite (.pure _) (.pure _)))

theorem alike_readAtom (htail : Tail tail) {c : Char} {cs : List Char} (hs : s.rest = c :: cs) (d : Char) :
    Alike tail s (readAtom d) (readAtom d) := by
  refine .get ?_
  split
  · exact .bind htail (alike_readEscape htail hs) fun _ _ _ _ _ => alike_ofAtom _
  · exact .bump hs (alike_ofAtom _)
  · exact .bump hs (.pure _)
  · exact .bump hs (.pure _)
  · exact .bump hs (alike_literal _ _)

theorem alike_operand (pieces : List Piece) : Alike tail s (operand pieces) (operand pieces) := by
  unfold operand
  split
  · exact .pure _
  · exact .throw _

theorem alike_body : ∀ (fuel fuel' : Nat) (alternatives : List Expr) (pieces : List Piece) {tail : List Char}
    {s : Reading}, Tail tail → Alike tail s (body fuel alternatives pieces) (body fuel' alternatives pieces)
  | 0, _, _, _, _, _, _ => .throw _
  | _ + 1, 0, _, _, _, _, _ => .throw_right _
  | fuel + 1, fuel' + 1, alternatives, pieces, _, _, htail => by
    rw [body, body]
    refine .skipSpace htail fun tail t htail _ => ?_
    have hrepeated (least : Nat) (most : Option Nat) {tail : List Char} (t : Reading) (htail : Tail tail) :
        Alike tail t
          (do
            let piece ← operand pieces
            let greedy ← readGreed
            body fuel alternatives (.expr (.times greedy least most piece.1) :: piece.2))
          (do
            let piece ← operand pieces
            let greedy ← readGreed
            body fuel' alternatives (.expr (.times greedy least most piece.1) :: piece.2)) := by
      refine .bind htail (alike_operand _) fun p t tail htail _ => ?_
      exact .bind htail (alike_readGreed htail) fun greedy t tail htail _ => alike_body fuel fuel' _ _ htail
    refine .peek htail (fun _ => .pure _) rfl fun c cs hs => ?_
    split
    case h_1 => exact .pure _
    case h_2 => exact .pure _
    all_goals
      rename_i heq
      cases heq
    case h_3 => exact .bump hs (alike_body fuel fuel' _ _ htail)
    case h_4 =>
      refine .get (.bind htail (alike_openGroup htail hs) fun opening t tail htail _ => ?_)
      cases opening with
      | switch o => exact .modify rfl (alike_body fuel fuel' _ _ htail)
      | group o =>
        refine .modify rfl (.bind htail (alike_body fuel fuel' _ _ htail) fun inner t tail htail _ => ?_)
        refine .next fun c cs hs => .ite (.throw_bind _) (.bump hs (.modify rfl ?_))
        exact alike_body fuel fuel' _ _ htail
    case h_5 => exact .bind htail (alike_readClass htail) fun e t tail htail _ => alike_body fuel fuel' _ _ htail
    case h_6 => exact .bump hs (hrepeated 0 (some 1) _ htail)
    case h_7 => exact .bump hs (hrepeated 0 none _ htail)
    case h_8 => exact .bump hs (hrepeated 1 none _ htail)
    case h_9 =>
      cases pieces with
      | nil => exact .throw_bind _
      | cons piece before =>
        cases piece with
        | switch => exact .throw_bind _
        | expr e =>
          have hpure : discard (operand (.expr e :: before)) = pure () := rfl
          rw [hpure, pure_bind, pure_bind]
          exact .bind htail (alike_readBounds htail hs) fun bounds t tail htail _ => hrepeated _ _ t htail
    case h_10 => exact .bind htail (alike_readAtom htail hs _) fun e t tail htail _ => alike_body fuel fuel' _ _ htail

end Reader
end GrammarKit.Regex
