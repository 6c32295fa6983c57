/-
Patterns between the start and the end of a text. A terminal is matched by two patterns made of its own: one stands
for a match at the start of a text, the other for a match of the whole text, and each puts the terminal's pattern in a
group. Since that pattern can be read by itself, the groups hold what it reads as. So the terminal goes by a single
expression, and its whole matches are the matches of this expression that end where the text does.
-/
import GrammarKit.Proofs.Regex.Enclosed
import GrammarKit.Scan.Matcher

namespace GrammarKit

open Regex (Expr)

namespace Regex.Reader

theorem read_eq_ok {source : List Char} {e : Expr} : Expr.read source = .ok e ↔
    ∃ s, body (source.length + 1) [] [] ⟨source, {}, []⟩ = .ok (e, s) ∧ s.rest = [] := by
  rw [Expr.read]
  constructor
  · intro h
    obtain ⟨⟨e', s⟩, hs, h⟩ := bind_eq_ok.1 h
    dsimp only at h
    split at h
    · rename_i hempty
      cases h
      exact ⟨s, hs, List.isEmpty_iff.1 hempty⟩
    · cases h
  · rintro ⟨s, hs, hrest⟩
    refine bind_eq_ok.2 ⟨(e, s), hs, ?_⟩
    dsimp only
    rw [hrest]
    rfl

/-- A pattern that can be read by itself is read as such in a group that stands behind the start of a text, and
reading goes on after the group. -/
theorem read_anchored {source after : List Char} {e out : Expr} (halone : Expr.read source = .ok e)
    (htail : Tail (')' :: after)) (hread : Expr.read ('^' :: '(' :: '?' :: ':' :: (source ++ ')' :: after)) = .ok out) :
    ∃ n names s, after.length < n ∧
      body n [] [.expr e, .expr (.look .textStart)] ⟨after, {}, names⟩ = .ok (out, s) := by
  obtain ⟨s, hs, hend⟩ := read_eq_ok.1 halone
  obtain ⟨s', hs', -⟩ := read_eq_ok.1 hread
  -- the group is opened, and what it holds is read
  change (body _ [] [] ⟨source ++ ')' :: after, {}, []⟩ >>= fun q => _) = _ at hs'
  obtain ⟨⟨e', t⟩, ht, hs'⟩ := bind_eq_ok.1 hs'
  obtain ⟨he, hrest⟩ := alike_body _ _ [] [] htail _ _ hs ht
  obtain ⟨rest, o, names⟩ := s
  obtain rfl : rest = [] := hend
  dsimp only at he hrest
  subst he
  rcases hrest with rfl | rfl
  · exact ⟨_, names, s', by simp only [List.length_cons, List.length_append]; omega, hs'⟩
  · -- the group is not closed
    cases hs'

theorem read_start {source : List Char} {e out : Expr} (halone : Expr.read source = .ok e)
    (hread : Expr.read ('^' :: '(' :: '?' :: ':' :: (source ++ [')'])) = .ok out) : out = .seq (.look .textStart) e := by
  obtain ⟨n, names, s, hn, h⟩ := read_anchored halone ⟨.inr ⟨[], rfl⟩, by decide, by decide⟩ hread
  obtain ⟨n, rfl⟩ : ∃ k, n = k + 1 := ⟨n - 1, by omega⟩
  cases h
  rfl

theorem read_whole {source : List Char} {e out : Expr} (halone : Expr.read source = .ok e)
    (hread : Expr.read ('^' :: '(' :: '?' :: ':' :: (source ++ [')', '$'])) = .ok out) :
    out = .seq (.seq (.look .textStart) e) (.look .textEnd) := by
  obtain ⟨n, names, s, hn, h⟩ := read_anchored halone ⟨.inr ⟨['$'], rfl⟩, by decide, by decide⟩ hread
  obtain ⟨n, rfl⟩ : ∃ k, n = k + 2 := ⟨n - 2, by simp only [List.length_singleton] at hn; omega⟩
  cases h
  rfl

end Regex.Reader

namespace Matcher

open Regex.Reader

variable {t : Terminal} {globalFlags : String} {m : Matcher}

theorem toList_start (source : String) :
    (s!"^(?:{source})").toList = '^' :: '(' :: '?' :: ':' :: (source.toList ++ [')']) := by
  simp [toString, String.toList_append]

theorem toList_whole (source : String) :
    (s!"^(?:{source})$").toList = '^' :: '(' :: '?' :: ':' :: (source.toList ++ [')', '$']) := by
  simp [toString, String.toList_append]

/-- The expression that a source reads as, unless it is too large. -/
def compile (name source : String) : Outcome Expr :=
  match Expr.read source.toList with
  | .ok e => if e.size ≤ Expr.sizeLimit then .ok e else .error (.grammar (.uncompilableTerminal name))
  | .error _ => .error (.grammar (.uncompilableTerminal name))

theorem read_of_compile {name source : String} {e : Expr} (h : compile name source = .ok e) :
    Expr.read source.toList = .ok e := by
  unfold compile at h
  split at h
  · rename_i he
    split at h
    · cases h
      exact he
    · cases h
  · cases h

theorem ofTerminal_of_read {source : String} {atStart throughout e : Expr}
    (hsource : source? t.pattern globalFlags = some source)
    (hstart : Expr.read ('^' :: '(' :: '?' :: ':' :: (source.toList ++ [')'])) = .ok atStart)
    (hwhole : Expr.read ('^' :: '(' :: '?' :: ':' :: (source.toList ++ [')', '$'])) = .ok throughout)
    (hwidth : Expr.read source.toList = .ok e)
    (hsize : atStart.size ≤ Expr.sizeLimit ∧ throughout.size ≤ Expr.sizeLimit) :
    ofTerminal t globalFlags = .ok (ofExprs atStart throughout (e.width.least.getD 0) e.width.most) := by
  unfold ofTerminal
  rw [hsource]
  dsimp only
  rw [toList_start, toList_whole, hstart, hwhole, widths, hwidth]
  dsimp only
  rw [if_pos hsize.1, if_pos hsize.2]
  rfl

theorem read_of_widths {source : String} {f : Regex.Fault → Failure} {w : Nat × Option Nat}
    (h : (widths source).mapError f = .ok w) : ∃ e, Expr.read source.toList = .ok e := by
  unfold widths at h
  cases he : Expr.read source.toList with
  | ok e => exact ⟨e, rfl⟩
  | error fault =>
    rw [he] at h
    cases h

/-- The source of a terminal reads as an expression by itself, and the terminal is matched by it: behind the start of
a text, and also before the end of it. -/
theorem ofExprs_of_ofTerminal (h : ofTerminal t globalFlags = .ok m) : ∃ source e,
    source? t.pattern globalFlags = some source ∧ Expr.read source.toList = .ok e ∧
      m = .ofExprs (.seq (.look .textStart) e) (.seq (.seq (.look .textStart) e) (.look .textEnd)) m.minWidth
        m.maxWidth := by
  unfold ofTerminal at h
  split at h
  · rename_i source hsource
    obtain ⟨atStart, hstart, h⟩ := bind_eq_ok.1 h
    obtain ⟨throughout, hwhole, h⟩ := bind_eq_ok.1 h
    obtain ⟨_, hwidths, h⟩ := bind_eq_ok.1 h
    cases h
    change compile t.name _ = _ at hstart hwhole
    obtain ⟨e, he⟩ := read_of_widths hwidths
    obtain rfl := read_start he (toList_start source ▸ read_of_compile hstart)
    obtain rfl := read_whole he (toList_whole source ▸ read_of_compile hwhole)
    exact ⟨source, e, hsource, he, rfl⟩
  · cases h

/-- The matches are those of an expression, and the whole ones those which end where the text does. -/
structure GoesBy (m : Matcher) (e : Expr) : Prop where
  length?_eq : m.length? = e.matchLength?
  matchesWhole_eq : ∀ text, m.matchesWhole text = ((e.seq (.look .textEnd)).matchLength? text).isSome

theorem exists_goesBy (h : ofTerminal t globalFlags = .ok m) : ∃ e, m.GoesBy e := by
  obtain ⟨source, e, -, -, hm⟩ := ofExprs_of_ofTerminal h
  rw [hm]
  exact ⟨_, rfl, fun _ => rfl⟩

end Matcher

end GrammarKit
