/-
The ends of spans. The least span over some values ends, on each side, where the outermost of their spans ends. What a
node is built of has its ends in tokens, and it is within the span of the node: also the values that a node gives way to
are over the tokens that the node is over.

Both ends are alike. A side says from which end tokens, values and spans are looked at.
-/
import GrammarKit.Proofs.Grammar.Shaping
import Mathlib.Data.Int.Order.Basic
import Mathlib.Order.Basic

namespace GrammarKit

/-! ## Sides -/

/-- An end of what is read from left to right. -/
inductive Side where
  | first
  | last

namespace Side

/-- A list from this side on. -/
def arrange {α : Type} : Side → List α → List α
  | first, l => l
  | last, l => l.reverse

/-- The element that is furthest out. -/
def outer? {α : Type} (side : Side) (l : List α) : Option α := (side.arrange l).head?

/-- The end of a span: offset, line and column. -/
def place : Side → Span → Nat × Nat × Nat
  | first, a => (a.start, a.line, a.column)
  | last, a => (a.stop, a.stopLine, a.stopColumn)

/-- How far in the end of a span is. -/
def depth : Side → Span → Int
  | first, a => a.start
  | last, a => -a.stop

variable {side : Side}

@[simp] theorem mem_arrange {α : Type} {a : α} {l : List α} : a ∈ side.arrange l ↔ a ∈ l := by
  cases side <;> simp [arrange]

theorem arrange_eq_nil {α : Type} {l : List α} : side.arrange l = [] ↔ l = [] := by
  cases side <;> simp [arrange]

theorem arrange_flatMap {α β : Type} (f : α → List β) (l : List α) :
    side.arrange (l.flatMap f) = (side.arrange l).flatMap fun a => side.arrange (f a) := by
  cases side with
  | first => rfl
  | last => exact List.reverse_flatMap

theorem depth_eq_of_place_eq {a b : Span} (h : side.place a = side.place b) : side.depth a = side.depth b := by
  cases side <;> simp_all [place, depth]

theorem eq_of_places_eq {a b : Span} (h : ∀ side : Side, side.place a = side.place b) : a = b := by
  have h1 := h first
  have h2 := h last
  cases a
  cases b
  simp_all [place]

/-- The ends of a common span are those that are further out. -/
theorem place_cover (a b : Span) : (side.place (a.cover b) = side.place a ∧ side.depth a ≤ side.depth b) ∨
    (side.place (a.cover b) = side.place b ∧ side.depth b ≤ side.depth a) := by
  cases side with
  | first =>
    by_cases h : a.start ≤ b.start
    · exact .inl ⟨by simp [Span.cover, place, h], by simpa [depth] using h⟩
    · exact .inr ⟨by simp [Span.cover, place, h], by simp only [depth]; omega⟩
  | last =>
    by_cases h : a.start ≤ b.start <;> by_cases hab : a.stop ≤ b.stop <;> by_cases hba : b.stop ≤ a.stop <;>
      simp [Span.cover, place, depth, h, hab, hba] <;> omega

/-- Each end of a span over several is that of one of them, and none is further out. -/
theorem place_foldl_cover : ∀ (spans : List Span) (a : Span), ∃ b ∈ a :: spans,
    side.place (spans.foldl Span.cover a) = side.place b ∧ ∀ b' ∈ a :: spans, side.depth b ≤ side.depth b'
  | [], a => ⟨a, List.mem_singleton_self a, rfl, by simp⟩
  | c :: spans, a => by
    obtain ⟨b, hb, hplace, hle⟩ := place_foldl_cover spans (a.cover c)
    obtain ⟨hcover, hrest⟩ := List.forall_mem_cons.1 hle
    -- the first two count as one
    obtain ⟨e, he, heq, hea, hec⟩ : ∃ e ∈ [a, c], side.place (a.cover c) = side.place e ∧
        side.depth e ≤ side.depth a ∧ side.depth e ≤ side.depth c := by
      rcases side.place_cover a c with ⟨heq, h⟩ | ⟨heq, h⟩
      · exact ⟨a, by simp, heq, le_rfl, h⟩
      · exact ⟨c, by simp, heq, h, le_rfl⟩
    have hdepth := depth_eq_of_place_eq heq
    rcases List.mem_cons.1 hb with rfl | hb
    · refine ⟨e, List.mem_append_left spans he, hplace.trans heq, ?_⟩
      simp only [List.forall_mem_cons]
      exact ⟨hea, hec, fun b' hb' => hdepth ▸ hrest b' hb'⟩
    · refine ⟨b, by simp [hb], hplace, ?_⟩
      simp only [List.forall_mem_cons]
      exact ⟨(hdepth ▸ hcover).trans hea, (hdepth ▸ hcover).trans hec, hrest⟩

/-- Each end of the least span over some values is that of a value, and none is further out. -/
theorem place_coverAll {cs : List Child} {a : Span} (h : coverAll cs = some a) : ∃ c ∈ cs, ∃ b ∈ c.span,
    side.place a = side.place b ∧ ∀ c' ∈ cs, ∀ b' ∈ c'.span, side.depth b ≤ side.depth b' := by
  unfold coverAll at h
  split at h
  · cases h
  · rename_i first spans hspans
    obtain rfl := Option.some.inj h
    obtain ⟨b, hb, hplace, hle⟩ := side.place_foldl_cover spans first
    rw [← hspans] at hb hle
    obtain ⟨c, hc, hcb⟩ := List.mem_filterMap.1 hb
    exact ⟨c, hc, b, hcb, hplace, fun c' hc' b' hb' => hle b' (List.mem_filterMap.2 ⟨c', hc', hb'⟩)⟩

end Side

/-- Values have a least span if one of them has a span, which it is no further in than. -/
theorem exists_coverAll {cs : List Child} {c : Child} (hc : c ∈ cs) {b : Span} (hb : b ∈ c.span) :
    ∃ a ∈ coverAll cs, ∀ side : Side, side.depth a ≤ side.depth b := by
  cases h : coverAll cs with
  | none =>
    have hmem : b ∈ cs.filterMap Child.span := List.mem_filterMap.2 ⟨c, hc, hb⟩
    unfold coverAll at h
    split at h
    · rename_i hnil
      rw [hnil] at hmem
      cases hmem
    · cases h
  | some a =>
    refine ⟨a, rfl, fun side => ?_⟩
    obtain ⟨_, -, b', -, hplace, hmin⟩ := side.place_coverAll h
    exact (side.depth_eq_of_place_eq hplace).le.trans (hmin c hc b hb)

/-! ## Values over tokens -/

/-- A span whose ends are those of tokens. -/
def Span.EndsIn (us : List Token) (a : Span) : Prop :=
  ∀ side : Side, ∃ u ∈ us, ∃ b ∈ u.span, side.place a = side.place b

/-- A value whose spans, and those of what it may give way to, have their ends in tokens; and no child is further out than
its node. -/
inductive Child.Over (us : List Token) : Child → Prop
  | token {t : Token} (h : ∀ a ∈ t.span, a.EndsIn us) : Over us (.token t)
  | tree {label : String} {children : List Child} {span : Option Span} (h : ∀ a ∈ span, a.EndsIn us)
    (hchildren : ∀ c ∈ children, Over us c)
    (hwithin : ∀ c ∈ children, ∀ b ∈ c.span, ∃ a ∈ span, ∀ side : Side, side.depth a ≤ side.depth b) :
    Over us (.tree ⟨label, children, span⟩)

namespace Child.Over

variable {us : List Token} {c : Child}

theorem mono {vs : List Token} (h : c.Over us) (hsub : us ⊆ vs) : c.Over vs := by
  have hends : ∀ {a : Span}, a.EndsIn us → a.EndsIn vs := fun ha side =>
    have ⟨u, hu, hb⟩ := ha side
    ⟨u, hsub hu, hb⟩
  induction h with
  | token h => exact .token fun a ha => hends (h a ha)
  | tree h _ hwithin ih => exact .tree (fun a ha => hends (h a ha)) ih hwithin

theorem endsIn (h : c.Over us) : ∀ a ∈ c.span, a.EndsIn us := by
  cases h with
  | token h => exact h
  | tree h => exact h

end Child.Over

theorem Span.EndsIn.ne_nil {us : List Token} {a : Span} (h : a.EndsIn us) : us ≠ [] := by
  rintro rfl
  obtain ⟨u, hu, -⟩ := h .first
  cases hu

namespace Shaping

variable {s : Shaping} {r : Rule} {vs : List Child}

/-- A child of a node is one of the values, or a child of one. -/
theorem exists_of_mem_contributions {keepAll : Bool} {c : Child} : ∀ {ps : List Part} {vs : List Child},
    c ∈ contributions keepAll ps vs → ∃ v ∈ vs, c = v ∨ ∃ t, v = .tree t ∧ c ∈ t.children
  | _, [], h => by simp [contributions] at h
  | [], v :: vs, h => ⟨c, by simpa [contributions] using h, .inl rfl⟩
  | p :: ps, v :: vs, h => by
    rw [contributions, List.mem_append] at h
    rcases h with h | h
    · refine ⟨v, List.mem_cons_self .., ?_⟩
      cases hslot : p.slot keepAll with
      | keep => exact .inl (by simpa [hslot, Slot.contribution] using h)
      | drop => simp [hslot, Slot.contribution] at h
      | inline =>
        cases v with
        | token t => exact .inl (by simpa [hslot, Slot.contribution] using h)
        | tree t =>
          rw [hslot, Slot.contribution] at h
          split at h
          · exact .inr ⟨t, rfl, h⟩
          · exact .inl (List.mem_singleton.1 h)
    · obtain ⟨v', hv', h⟩ := exists_of_mem_contributions h
      exact ⟨v', List.mem_cons_of_mem _ hv', h⟩

section Over

variable {us : List Token} (hvs : ∀ v ∈ vs, v.Over us)
include hvs

/-- A child that is kept is over the tokens, and its span is within that of a value. -/
theorem over_of_mem_kept {c : Child} (hc : c ∈ s.kept r vs) : c.Over us ∧
    ∀ b ∈ c.span, ∃ v ∈ vs, ∃ a ∈ v.span, ∀ side : Side, side.depth a ≤ side.depth b := by
  obtain ⟨v, hv, rfl | ⟨t, rfl, hct⟩⟩ := exists_of_mem_contributions hc
  · exact ⟨hvs c hv, fun b hb => ⟨c, hv, b, hb, fun _ => le_rfl⟩⟩
  · cases hvs _ hv with
    | tree h hchildren hwithin =>
      refine ⟨hchildren c hct, fun b hb => ?_⟩
      obtain ⟨a, ha, hle⟩ := hwithin c hct b hb
      exact ⟨_, hv, a, ha, hle⟩

variable (hs : s.actions = []) (hpropagates : s.propagatePositions = true)
include hs hpropagates

/-- A node over values is a value over the same tokens. -/
theorem over_action : (s.action r vs).Over us := by
  by_cases hone : r.options.expandSingle = true ∧ (s.kept r vs).length = 1
  · obtain ⟨hr, hlen⟩ := hone
    obtain ⟨only, honly⟩ := List.length_eq_one_iff.1 hlen
    rw [action_eq_only hs hr honly]
    exact (over_of_mem_kept hvs (honly ▸ List.mem_singleton_self only)).1
  · rw [action_eq_tree hs hone, if_pos hpropagates]
    refine .tree (fun a ha side => ?_) (fun c hc => (over_of_mem_kept hvs hc).1) fun c hc b hb => ?_
    · obtain ⟨v, hv, b, hb, hplace, -⟩ := side.place_coverAll ha
      obtain ⟨u, hu, e, he, hbe⟩ := (hvs v hv).endsIn b hb side
      exact ⟨u, hu, e, he, hplace.trans hbe⟩
    · obtain ⟨v, hv, a, ha, hle⟩ := (over_of_mem_kept hvs hc).2 b hb
      obtain ⟨a', ha', hle'⟩ := exists_coverAll hv ha
      exact ⟨a', ha', fun side => (hle' side).trans (hle side)⟩

/-- A node is no further out than all of the values. -/
theorem exists_of_span_action (side : Side) {a : Span} (ha : a ∈ (s.action r vs).span) :
    ∃ v ∈ vs, ∃ b ∈ v.span, side.depth b ≤ side.depth a := by
  by_cases hone : r.options.expandSingle = true ∧ (s.kept r vs).length = 1
  · obtain ⟨hr, hlen⟩ := hone
    obtain ⟨only, honly⟩ := List.length_eq_one_iff.1 hlen
    rw [action_eq_only hs hr honly] at ha
    obtain ⟨v, hv, b, hb, hle⟩ := (over_of_mem_kept hvs (honly ▸ List.mem_singleton_self only)).2 a ha
    exact ⟨v, hv, b, hb, hle side⟩
  · rw [action_eq_tree hs hone, if_pos hpropagates] at ha
    obtain ⟨v, hv, b, hb, hplace, -⟩ := side.place_coverAll ha
    exact ⟨v, hv, b, hb, (side.depth_eq_of_place_eq hplace).ge⟩

end Over

/-- A node that is built is as far out as each of the values. -/
theorem exists_span_of_built (hs : s.actions = []) (hpropagates : s.propagatePositions = true)
    (h : ¬ (r.options.expandSingle = true ∧ (s.kept r vs).length = 1)) {v : Child} (hv : v ∈ vs) {b : Span}
    (hb : b ∈ v.span) : ∃ a ∈ (s.action r vs).span, ∀ side : Side, side.depth a ≤ side.depth b := by
  rw [action_eq_tree hs h, if_pos hpropagates]
  exact exists_coverAll hv hb

end Shaping

end GrammarKit
