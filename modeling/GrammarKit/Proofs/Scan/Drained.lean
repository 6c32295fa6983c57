/-
What sources have given when they come to their end: tokens, and perhaps a failure. Sources one after another give what
the first one gives and, unless it fails, what the others do. A source may be at its end for good.
-/
import GrammarKit.Proofs.Scan.Lexed

namespace GrammarKit

/-- The tokens that a source has given at its end, and the failure that it ended with, if it did. -/
@[ext]
structure Drained where
  tokens : List Token
  failure : Option Failure

namespace Drained

/-- One source after another; nothing comes after a failure. -/
def andThen (a b : Drained) : Drained :=
  match a.failure with
  | some _ => a
  | none => ⟨a.tokens ++ b.tokens, b.failure⟩

/-- Sources one after another. -/
def concat (ds : List Drained) : Drained := ds.foldr andThen ⟨[], none⟩

/-- Other tokens, and another failure, in the place of each. -/
def map (f : Token → Token) (g : Failure → Failure) (d : Drained) : Drained := ⟨d.tokens.map f, d.failure.map g⟩

/-- A source of one token or failure. -/
def ofOutcome : Outcome Token → Drained
  | .ok t => ⟨[t], none⟩
  | .error f => ⟨[], some f⟩

@[simp] theorem concat_nil : concat [] = ⟨[], none⟩ := rfl

@[simp] theorem concat_cons (d : Drained) (ds : List Drained) : concat (d :: ds) = d.andThen (concat ds) := rfl

@[simp] theorem nil_andThen (b : Drained) : (⟨[], none⟩ : Drained).andThen b = b := rfl

@[simp] theorem andThen_nil (a : Drained) : a.andThen ⟨[], none⟩ = a := by
  rcases a with ⟨ts, _ | f⟩
  · exact Drained.ext ts.append_nil rfl
  · rfl

theorem andThen_of_none {a : Drained} (h : a.failure = none) (b : Drained) :
    a.andThen b = ⟨a.tokens ++ b.tokens, b.failure⟩ := by
  rw [andThen, h]

theorem cons_andThen (t : Token) (a b : Drained) :
    (⟨t :: a.tokens, a.failure⟩ : Drained).andThen b = ⟨t :: (a.andThen b).tokens, (a.andThen b).failure⟩ := by
  rcases a with ⟨ts, _ | f⟩ <;> rfl

variable {f : Token → Token} {g : Failure → Failure}

theorem map_andThen (a b : Drained) : (a.andThen b).map f g = (a.map f g).andThen (b.map f g) := by
  rcases a with ⟨ts, _ | e⟩
  · exact Drained.ext List.map_append rfl
  · rfl

theorem map_concat : ∀ ds : List Drained, (concat ds).map f g = concat (ds.map (map f g))
  | [] => rfl
  | d :: ds => by rw [concat_cons, map_andThen, map_concat ds, List.map_cons, concat_cons]

theorem map_map {f' : Token → Token} {g' : Failure → Failure} (d : Drained) :
    (d.map f g).map f' g' = d.map (f' ∘ f) (g' ∘ g) :=
  Drained.ext (List.map_map ..) (Option.map_map ..)

theorem map_id (d : Drained) : d.map f id = ⟨d.tokens.map f, d.failure⟩ := Drained.ext rfl Option.map_id'

end Drained

namespace TokenSource

variable {σ : Type} [TokenSource σ] {s s' : σ}

def drained (s : σ) : Drained := ⟨(drain s).1, (drain s).2.1⟩

theorem drained_error {f : Failure} (h : pull s none = (.error f, s')) : drained s = ⟨[], some f⟩ := by
  rw [drained, Earley.Chart.drain_error h]

theorem drained_ok_none (h : pull s none = (.ok none, s')) : drained s = ⟨[], none⟩ := by
  rw [drained, Earley.Chart.drain_ok_none h]

theorem drained_ok_some {t : Token} (h : pull s none = (.ok (some t), s')) :
    drained s = ⟨t :: (drained s').tokens, (drained s').failure⟩ := by
  rw [drained, Earley.Chart.drain_ok_some h]
  rfl

theorem drained_congr (h : pull s none = pull s' none) : drained s = drained s' := by
  rw [drained, drained, drain_congr h]

/-- However often a source is asked, it has no token and no failure any more. -/
def Exhausted (s : σ) : Prop :=
  ∀ (states : List (Option Nat)) (state : Option Nat),
    (pull (states.foldl (fun s state => (pull s state).2) s) state).1 = .ok none

theorem exhausted_of_fixed (h : ∀ state, pull s state = (.ok none, s)) : Exhausted s := by
  intro states state
  have hfixed : states.foldl (fun s state => (pull s state).2) s = s := by
    induction states with
    | nil => rfl
    | cons state states ih => rw [List.foldl_cons, h, ih]
  rw [hfixed, h]

end TokenSource

end GrammarKit
