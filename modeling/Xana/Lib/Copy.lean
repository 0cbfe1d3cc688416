import Mathlib.Data.List.Induction
import Mathlib.Data.List.Pairwise
import Mathlib.Logic.Function.Basic
import Mathlib.Logic.Nontrivial.Basic

/-!
# Copying cells one after another

A copy takes each cell `dest i` from the cell `src i`. A loop does this for one index after
another, in the order of a list, and always reads what is in the memory by then. So the
order matters where the two overlap: it copies what was in the memory at the beginning if
each cell is read before it is overwritten (`Xana.copied_copyCells`), and in no other order
(`Xana.copied_iff_readFirst`).
-/

namespace Xana

variable {ι α β : Type*}

section Cells

variable [DecidableEq α] (dest src : ι → α)

/-- The cells are set in the order of the list. -/
def copyCells : List ι → (α → β) → α → β
  | [], m => m
  | i :: l, m => copyCells l (Function.update m (dest i) (m (src i)))

/-- **No cell is overwritten before it is read.** -/
def ReadFirst (l : List ι) : Prop := l.Pairwise fun i j => src j ≠ dest i

end Cells

/-- **What a copy is for**: the cells at the destination have what was at the source, and no
other cell has changed. -/
structure CopiedCells (dest src : ι → α) (l : List ι) (m m' : α → β) : Prop where
  copied : ∀ i ∈ l, m' (dest i) = m (src i)
  kept : ∀ a, (∀ i ∈ l, a ≠ dest i) → m' a = m a

section Order

variable [DecidableEq α] {dest src : ι → α} {l l' : List ι} {i : ι} {m : α → β}

@[simp] theorem copyCells_nil (m : α → β) : copyCells dest src [] m = m := rfl

theorem copyCells_cons (i : ι) (l : List ι) (m : α → β) :
    copyCells dest src (i :: l) m =
      copyCells dest src l (Function.update m (dest i) (m (src i))) := rfl

theorem copyCells_concat (l : List ι) (i : ι) (m : α → β) :
    copyCells dest src (l ++ [i]) m = Function.update (copyCells dest src l m) (dest i)
      (copyCells dest src l m (src i)) := by
  induction l generalizing m with
  | nil => rfl
  | cons j l ih => exact ih _

/-- A cell outside the destination stays as it is, in whatever order. -/
theorem copyCells_of_notMem {a : α} (h : ∀ i ∈ l, a ≠ dest i) : copyCells dest src l m a = m a := by
  induction l generalizing m with
  | nil => rfl
  | cons i l ih =>
    obtain ⟨hi, hl⟩ := List.forall_mem_cons.mp h
    rw [copyCells_cons, ih hl, Function.update_of_ne hi]

/-- **A loop that reads first copies.** -/
theorem copied_copyCells (hdest : l.Pairwise fun i j => dest i ≠ dest j)
    (h : ReadFirst dest src l) (m : α → β) : CopiedCells dest src l m (copyCells dest src l m) where
  kept := fun _ ha => copyCells_of_notMem ha
  copied := by
    induction l generalizing m with
    | nil => exact List.forall_mem_nil _
    | cons i l ih =>
      obtain ⟨hi, hl⟩ := List.pairwise_cons.mp hdest
      obtain ⟨hread, hrest⟩ := List.pairwise_cons.mp h
      refine List.forall_mem_cons.mpr ⟨?_, fun j hj => ?_⟩
      · rw [copyCells_cons, copyCells_of_notMem hi, Function.update_self]
      · -- the source of a later cell has not been written
        rw [copyCells_cons, ih hl hrest _ j hj, Function.update_of_ne (hread j hj)]

/-- What holds of a loop holds of it without its last round. -/
theorem CopiedCells.of_concat (hdest : ∀ j ∈ l, dest j ≠ dest i)
    (h : CopiedCells dest src (l ++ [i]) m (copyCells dest src (l ++ [i]) m)) :
    CopiedCells dest src l m (copyCells dest src l m) where
  kept := fun _ ha => copyCells_of_notMem ha
  copied := by
    intro j hj
    have hcopied := h.copied j (List.mem_append_left _ hj)
    rwa [copyCells_concat, Function.update_of_ne (hdest j hj)] at hcopied

/-- **The order of a loop that copies every memory** reads first. -/
theorem copied_iff_readFirst [Nontrivial β] (hdest : l.Pairwise fun i j => dest i ≠ dest j)
    (hsrc : l.Pairwise fun i j => src i ≠ src j) :
    (∀ m : α → β, CopiedCells dest src l m (copyCells dest src l m)) ↔ ReadFirst dest src l := by
  refine ⟨fun h => ?_, fun h m => copied_copyCells hdest h m⟩
  induction l using List.reverseRecOn with
  | nil => exact List.Pairwise.nil
  | append_singleton l i ih =>
    obtain ⟨hdest, -, hdesti⟩ := List.pairwise_append.mp hdest
    obtain ⟨hsrc, -, hsrci⟩ := List.pairwise_append.mp hsrc
    have hlast : ∀ j ∈ l, dest j ≠ dest i := fun j hj => hdesti j hj i (List.mem_singleton_self i)
    have hinit := fun m => (h m).of_concat hlast
    refine List.pairwise_append.mpr ⟨ih hdest hsrc hinit, List.pairwise_singleton _ _, ?_⟩
    intro j hj k hk heq
    rw [List.mem_singleton.mp hk] at heq
    -- the last round reads what an earlier one has written: the source of that one
    have hsame : ∀ m : α → β, m (src j) = m (src i) := by
      intro m
      have hcopied := (h m).copied i (List.mem_append_right _ (List.mem_singleton_self i))
      rwa [copyCells_concat, Function.update_self, heq, (hinit m).copied j hj,
        ← heq] at hcopied
    obtain ⟨x, y, hxy⟩ := exists_pair_ne β
    have hupdate := hsame (Function.update (fun _ => x) (src i) y)
    rw [Function.update_self, Function.update_of_ne (hsrci j hj i (List.mem_singleton_self i))]
      at hupdate
    exact hxy hupdate

end Order

end Xana
