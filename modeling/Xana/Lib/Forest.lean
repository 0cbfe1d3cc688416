import Mathlib.Data.List.Basic
import Mathlib.Data.List.Induction

/-!
# Trees of tables

A table has slots, and a slot leads to another table or to nothing: `kid t i`. A path
is a list of slots, and `Forest.walk kid r p` is the table that `p` leads to from the
root `r`.

Some pairs of a root and a path are *keys*: those that the tables are there
for. The tables are `Unshared` when two keys never lead to the same one. Then a
new table may be put in an empty slot, and no other key sees it
(`Forest.Unshared.walk_graft`), and a new root may be added.
-/

namespace Xana

namespace Forest

variable {α ι : Type*}

/-- The table that a path leads to. -/
def walk (kid : α → ι → Option α) : α → List ι → Option α
  | r, [] => some r
  | r, i :: p => (kid r i).bind fun t => walk kid t p

/-- **No two keys lead to one table.** The keys are closed under leaving out the last
slot. -/
structure Unshared (kid : α → ι → Option α) (key : α → List ι → Prop) : Prop where
  init : ∀ {r : α} {p : List ι} {i : ι}, key r (p ++ [i]) → key r p
  inj : ∀ {r r' t : α} {p p' : List ι}, key r p → key r' p' → walk kid r p = some t →
    walk kid r' p' = some t → r = r' ∧ p = p'

/-- A new table `t` is put in the slot `i` of `d`. What its own slots hold matters only
where they belong to a key. -/
structure Grafted (kid kid' : α → ι → Option α) (d : α) (i : ι) (t : α) : Prop where
  slot : kid' d i = some t
  other : ∀ a j, a ≠ t → ¬(a = d ∧ j = i) → kid' a j = kid a j

variable {kid kid' : α → ι → Option α} {key key' : α → List ι → Prop}
variable {r r' c d t : α} {i j : ι} {p q : List ι}

@[simp] theorem walk_nil : walk kid r [] = some r := rfl

@[simp] theorem walk_cons : walk kid r (i :: p) = (kid r i).bind fun t => walk kid t p := rfl

theorem walk_append : walk kid r (p ++ q) = (walk kid r p).bind fun t => walk kid t q := by
  induction p generalizing r with
  | nil => rfl
  | cons i p ih =>
    rw [List.cons_append, walk_cons, walk_cons, Option.bind_assoc]
    congr 1
    funext t
    exact ih

theorem walk_concat : walk kid r (p ++ [i]) = (walk kid r p).bind fun t => kid t i := by
  rw [walk_append]
  congr 1
  funext t
  rw [walk_cons]
  cases kid t i <;> rfl

/-- The path to a table leads through tables. -/
theorem walk_of_concat (h : walk kid r (p ++ [i]) = some t) :
    ∃ d, walk kid r p = some d ∧ kid d i = some t := by
  rw [walk_concat] at h
  exact Option.bind_eq_some_iff.mp h

/-- A walk sees the slots on its way only. -/
theorem walk_congr (hinit : ∀ {r p i}, key r (p ++ [i]) → key r p)
    (hkid : ∀ q i d, key r (q ++ [i]) → walk kid r q = some d → kid' d i = kid d i)
    (hp : key r p) : walk kid' r p = walk kid r p := by
  induction p using List.reverseRecOn with
  | nil => rfl
  | append_singleton p i ih =>
    rw [walk_concat, walk_concat, ih (hinit hp)]
    cases hd : walk kid r p with
    | none => rfl
    | some d => exact hkid p i d hp hd

namespace Unshared

/-- Fewer keys. -/
theorem mono (h : Unshared kid key) (hinit : ∀ {r p i}, key' r (p ++ [i]) → key' r p)
    (hkey : ∀ r p, key' r p → key r p) : Unshared kid key' where
  init := hinit
  inj := fun hp hp' => h.inj (hkey _ _ hp) (hkey _ _ hp')

/-- The same walks. -/
theorem congr (h : Unshared kid key) (hwalk : ∀ r p, key r p → walk kid' r p = walk kid r p) :
    Unshared kid' key where
  init := h.init
  inj := by
    intro r r' t p p' hp hp' hw hw'
    rw [hwalk _ _ hp] at hw
    rw [hwalk _ _ hp'] at hw'
    exact h.inj hp hp' hw hw'

section Graft

variable [DecidableEq α] [DecidableEq ι]

/-- **What a new table changes**: the key of its slot leads to it, and every other key
leads where it led. -/
theorem walk_graft (h : Unshared kid key) (hg : Grafted kid kid' d i t) (hp : key r p)
    (hd : walk kid r p = some d) (hnone : kid d i = none)
    (hfresh : ∀ r p, key r p → walk kid r p ≠ some t)
    (hnew : ∀ j, key r (p ++ [i] ++ [j]) → kid' t j = none) (hq : key r' q) :
    walk kid' r' q = if r' = r ∧ q = p ++ [i] then some t else walk kid r' q := by
  induction q using List.reverseRecOn with
  | nil => simp
  | append_singleton q j ih =>
    have hq' := h.init hq
    rw [walk_concat, ih hq']
    by_cases hself : r' = r ∧ q = p ++ [i]
    · -- the new table has no slots
      obtain ⟨rfl, rfl⟩ := hself
      have hlen : p ++ [i] ++ [j] ≠ p ++ [i] := fun heq => by simpa using congrArg List.length heq
      rw [if_pos ⟨rfl, rfl⟩, if_neg fun hc => hlen hc.2, Option.bind_some, hnew j hq, walk_concat,
        walk_concat, hd, Option.bind_some, hnone]
      rfl
    · rw [if_neg hself]
      cases hw : walk kid r' q with
      | none =>
        rw [walk_concat, hw, if_neg]
        · rfl
        · rintro ⟨rfl, heq⟩
          rw [(List.append_inj' heq rfl).1, hd] at hw
          exact absurd hw (by simp)
      | some a =>
        have hne : a ≠ t := fun heq => hfresh r' q hq' (heq ▸ hw)
        rw [Option.bind_some, walk_concat, hw, Option.bind_some]
        by_cases hslot : a = d ∧ j = i
        · obtain ⟨rfl, rfl⟩ := hslot
          obtain ⟨rfl, rfl⟩ := h.inj hq' hp hw hd
          rw [hg.slot, if_pos ⟨rfl, rfl⟩]
        · rw [hg.other a j hne hslot, if_neg]
          rintro ⟨rfl, heq⟩
          obtain ⟨rfl, hlast⟩ := List.append_inj' heq rfl
          rw [hd] at hw
          exact hslot ⟨(Option.some.inj hw).symm, List.head_eq_of_cons_eq hlast⟩

/-- **Putting a new table in an empty slot shares nothing.** -/
theorem graft (h : Unshared kid key) (hg : Grafted kid kid' d i t) (hp : key r p)
    (hd : walk kid r p = some d) (hnone : kid d i = none)
    (hfresh : ∀ r p, key r p → walk kid r p ≠ some t)
    (hnew : ∀ j, key r (p ++ [i] ++ [j]) → kid' t j = none) : Unshared kid' key where
  init := h.init
  inj := by
    intro r₁ r₂ a p₁ p₂ h₁ h₂ hw₁ hw₂
    rw [h.walk_graft hg hp hd hnone hfresh hnew h₁] at hw₁
    rw [h.walk_graft hg hp hd hnone hfresh hnew h₂] at hw₂
    split_ifs at hw₁ hw₂ with hc₁ hc₂ hc₂
    · exact ⟨hc₁.1.trans hc₂.1.symm, hc₁.2.trans hc₂.2.symm⟩
    · exact absurd (hw₂.trans hw₁.symm) (hfresh r₂ p₂ h₂)
    · exact absurd (hw₁.trans hw₂.symm) (hfresh r₁ p₁ h₁)
    · exact h.inj h₁ h₂ hw₁ hw₂

end Graft

/-- **A new root** with no tables behind it. -/
theorem insert (h : Unshared kid key) (hinit : ∀ {r p i}, key' r (p ++ [i]) → key' r p)
    (hkey : ∀ r p, key' r p → r ≠ c → key r p) (hfresh : ∀ r p, key r p → walk kid r p ≠ some c)
    (hnew : ∀ i, key' c [i] → kid c i = none) : Unshared kid key' where
  init := hinit
  inj := by
    have hnil : ∀ {p t}, key' c p → walk kid c p = some t → p = [] := by
      intro p
      induction p using List.reverseRecOn with
      | nil => exact fun _ _ => rfl
      | append_singleton p i ih =>
        intro t hp hw
        obtain ⟨d, hd, hi⟩ := walk_of_concat hw
        obtain rfl := ih (hinit hp) hd
        obtain rfl : c = d := Option.some.inj hd
        rw [hnew i hp] at hi
        exact absurd hi (by simp)
    intro r r' t p p' hp hp' hw hw'
    by_cases hr : r = c <;> by_cases hr' : r' = c
    · subst hr hr'
      exact ⟨rfl, (hnil hp hw).trans (hnil hp' hw').symm⟩
    · subst hr
      obtain rfl := hnil hp hw
      obtain rfl : r = t := Option.some.inj hw
      exact absurd hw' (hfresh r' p' (hkey r' p' hp' hr'))
    · subst hr'
      obtain rfl := hnil hp' hw'
      obtain rfl : r' = t := Option.some.inj hw'
      exact absurd hw (hfresh r p (hkey r p hp hr))
    · exact h.inj (hkey r p hp hr) (hkey r' p' hp' hr') hw hw'

end Unshared

end Forest

end Xana
