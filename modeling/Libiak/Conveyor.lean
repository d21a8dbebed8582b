/-
A conveyor: what a pipeline of buffers is for, told without the buffers.

Items go in at one end, one at a time. They travel in groups: the group that is
being collected, the groups collected, the groups that have been taken away to
be delivered, and the batches they have been delivered in. A producer adds to
the first two places, a consumer moves whole groups on between the others, and
neither waits for the other.

Nothing here knows what an item or a group is made of. A program whose steps are
steps of a conveyor delivers every item once, in order, and whole
(`Step.items`, `Step.handed`, `delivered_prefix`), and the last section is the
part of that which is about bytes: items that are themselves lists, of which the
program only holds the concatenations (`Spells`).
-/
import Mathlib.Data.List.Basic
import Mathlib.Tactic.TypeStar

set_option autoImplicit false

namespace Libiak

/-- The batches delivered, the last one open; the groups on their way; the
groups collected; and the group that is being collected. -/
structure Conveyor (τ : Type*) where
  out : List (List τ)
  moving : List (List τ)
  filled : List (List τ)
  current : List τ

namespace Conveyor

variable {τ : Type*} {c d : Conveyor τ} {new : List τ}

/-- What has been delivered. -/
def delivered (c : Conveyor τ) : List τ := c.out.flatten

/-- What the producers have lost sight of: delivered, or on its way. -/
def handed (c : Conveyor τ) : List τ := c.out.flatten ++ c.moving.flatten

/-- Everything that has been put on the conveyor. -/
def items (c : Conveyor τ) : List τ := c.handed ++ c.filled.flatten ++ c.current

/-- What one step of a producer or of the consumer can do, `new` being the items
it puts on. -/
inductive Step : List τ → Conveyor τ → Conveyor τ → Prop where
  /-- Nothing. -/
  | rest {c : Conveyor τ} : Step [] c c
  /-- An item joins the group that is being collected. -/
  | add {c : Conveyor τ} (x : τ) : Step [x] c { c with current := c.current ++ [x] }
  /-- That group is complete, and the item begins the next one. -/
  | fill {c : Conveyor τ} (x : τ) :
      Step [x] c { c with filled := c.filled ++ [c.current], current := [x] }
  /-- Everything collected is taken away, the group under collection with it. -/
  | take {c : Conveyor τ} (h : c.moving = []) :
      Step [] c { c with moving := c.filled ++ [c.current], filled := [], current := [] }
  /-- Everything collected is taken away, and the group under collection stays. -/
  | takeFilled {c : Conveyor τ} (h : c.moving = []) :
      Step [] c { c with moving := c.filled, filled := [] }
  /-- The next group on its way joins the open batch. -/
  | deliver {c : Conveyor τ} (out : List (List τ)) (batch group : List τ)
      (moving : List (List τ)) (hout : c.out = out ++ [batch])
      (hmoving : c.moving = group :: moving) :
      Step [] c { c with out := out ++ [batch ++ group], moving := moving }
  /-- It joins the open batch, which is then closed. -/
  | deliverLast {c : Conveyor τ} (out : List (List τ)) (batch group : List τ)
      (moving : List (List τ)) (hout : c.out = out ++ [batch])
      (hmoving : c.moving = group :: moving) :
      Step [] c { c with out := out ++ [batch ++ group] ++ [[]], moving := moving }

/-- **Nothing is lost, repeated or reordered.** A step adds the new items at the
end. -/
theorem Step.items (h : Step new c d) : d.items = c.items ++ new := by
  unfold Conveyor.items handed
  cases h with
  | rest => simp
  | add x => simp
  | fill x => simp
  | take hmoving => simp [hmoving]
  | takeFilled hmoving => simp [hmoving]
  | deliver out batch group moving hout hmoving => simp [hout, hmoving]
  | deliverLast out batch group moving hout hmoving => simp [hout, hmoving]

/-- What the producers have lost sight of only grows, and at its end. -/
theorem Step.handed (h : Step new c d) : c.handed <+: d.handed := by
  unfold Conveyor.handed
  cases h with
  | rest => exact List.prefix_refl _
  | add x => exact List.prefix_refl _
  | fill x => exact List.prefix_refl _
  | take hmoving => simp [hmoving]
  | takeFilled hmoving => simp [hmoving]
  | deliver out batch group moving hout hmoving => simp [hout, hmoving]
  | deliverLast out batch group moving hout hmoving => simp [hout, hmoving]

/-- What is delivered is the beginning of what was put on. -/
theorem delivered_prefix (c : Conveyor τ) : c.delivered <+: c.items := by
  unfold delivered items handed
  simp only [List.append_assoc]
  exact List.prefix_append _ _

/-! ## Items that are lists

A program that stores an item by copying its elements holds the concatenation of
the items of a group, not the group. -/

section Spells

variable {α : Type*}

/-- The chunks are, one by one, the concatenations of the groups. -/
def Spells (chunks : List (List α)) (groups : List (List (List α))) : Prop :=
  chunks = groups.map List.flatten

theorem Spells.flatten {chunks : List (List α)} {groups : List (List (List α))}
    (h : Spells chunks groups) : chunks.flatten = groups.flatten.flatten := by
  rw [h, List.flatten_flatten]

theorem spells_nil : Spells ([] : List (List α)) [] := rfl

theorem Spells.append {xs ys : List (List α)} {gs hs : List (List (List α))}
    (hx : Spells xs gs) (hy : Spells ys hs) : Spells (xs ++ ys) (gs ++ hs) := by
  unfold Spells at *
  rw [hx, hy, List.map_append]

/-- A chunk and the group it spells. -/
theorem spells_singleton {chunk : List α} {group : List (List α)} (h : chunk = group.flatten) :
    Spells [chunk] [group] := by
  rw [h]
  rfl

theorem spells_cons {chunk : List α} {chunks : List (List α)} {groups : List (List (List α))}
    (h : Spells (chunk :: chunks) groups) :
    ∃ group rest, groups = group :: rest ∧ chunk = group.flatten ∧ Spells chunks rest := by
  cases groups with
  | nil => cases h
  | cons group rest =>
      simp only [Spells, List.map_cons, List.cons.injEq] at h
      exact ⟨group, rest, rfl, h.1, h.2⟩

theorem spells_concat {chunk : List α} {chunks : List (List α)} {groups : List (List (List α))}
    (h : Spells (chunks ++ [chunk]) groups) :
    ∃ rest group, groups = rest ++ [group] ∧ Spells chunks rest ∧ chunk = group.flatten := by
  unfold Spells at h
  obtain ⟨rest, last, hgroups, hrest, hlast⟩ := List.map_eq_append_iff.mp h.symm
  obtain ⟨group, rfl, hgroup⟩ := List.map_eq_singleton_iff.mp hlast
  exact ⟨rest, group, hgroups, hrest.symm, hgroup.symm⟩

end Spells

end Conveyor

end Libiak
