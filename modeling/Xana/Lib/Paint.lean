import Mathlib.Data.Set.Lattice
import Xana.Lib.Memory

/-!
# Painting cells of memory

A picture is a set of cells in memory, each of as many bytes as a colour has. What a drawing
function does is said by the cells that it `Paints`: their bytes are those of the colour,
and no other byte has changed, whatever was in memory before. So two functions that paint
the same cells are the same function (`Xana.Paints.eq`), and one after the other they paint
the cells of both (`Xana.Paints.comp`), in either order.

A function may also give each cell a colour of its own, or none: what it `Draws` is then a
*stroke*, and a picture in memory is changed by the strokes that are drawn on it, one over the
other (`Xana.Draws.comp`, `Xana.Pictures.draws`).
-/

namespace Xana

open Mem

variable {ι : Type*}

/-- Cells of `n` bytes do not overlap. -/
def CellsApart (place : ι → ℕ) (n : ℕ) (V : Set ι) : Prop :=
  ∀ c ∈ V, ∀ c' ∈ V, c ≠ c' → place c + n ≤ place c' ∨ place c' + n ≤ place c

/-- A byte that is in none of the cells. -/
def OutsideCells (place : ι → ℕ) (n : ℕ) (A : Set ι) (b : ℕ) : Prop :=
  ∀ c ∈ A, b < place c ∨ place c + n ≤ b

/-- **A function paints the cells of `A`**, and leaves all else. -/
structure Paints (place : ι → ℕ) (paint : List UInt8) (A : Set ι) (f : Mem → Mem) : Prop where
  painted : ∀ m, ∀ c ∈ A, (f m).At (place c) paint
  kept : ∀ m b, OutsideCells place paint.length A b → f m b = m b

namespace Paints

variable {place : ι → ℕ} {paint : List UInt8} {V A B : Set ι} {f g : Mem → Mem} {c : ι}

theorem id : Paints place paint ∅ fun m => m where
  painted := fun _ c hc => absurd hc (Set.notMem_empty c)
  kept := fun _ _ _ => rfl

/-- A byte is in one of the cells, or outside them. -/
theorem exists_cell_of_not_outsideCells {n b : ℕ} (h : ¬OutsideCells place n A b) :
    ∃ c ∈ A, ∃ k < n, b = place c + k := by
  simp only [OutsideCells, not_forall, not_or, Nat.not_lt, Nat.not_le] at h
  obtain ⟨c, hc, hle, hlt⟩ := h
  exact ⟨c, hc, b - place c, by omega, by omega⟩

/-- **Painters of the same cells are the same.** -/
theorem eq (hf : Paints place paint A f) (hg : Paints place paint A g) : f = g := by
  funext m b
  by_cases hb : OutsideCells place paint.length A b
  · rw [hf.kept m b hb, hg.kept m b hb]
  · obtain ⟨c, hc, k, hk, rfl⟩ := exists_cell_of_not_outsideCells hb
    rw [(hf.painted m c hc).apply hk, (hg.painted m c hc).apply hk]

/-- One cell. -/
theorem write (place : ι → ℕ) (paint : List UInt8) (c : ι) :
    Paints place paint {c} fun m => m.write (place c) paint where
  painted := by
    rintro m c' rfl
    exact read_write_self m (place c') paint
  kept := fun _ _ hb => write_of_notMem (hb c rfl)

/-- **One painter after the other.** -/
theorem comp (hV : CellsApart place paint.length V) (hA : A ⊆ V) (hB : B ⊆ V)
    (hf : Paints place paint A f) (hg : Paints place paint B g) :
    Paints place paint (A ∪ B) fun m => g (f m) where
  painted := by
    intro m c hc
    by_cases hcB : c ∈ B
    · exact hg.painted _ c hcB
    · -- a cell of the first painter only, which the second one does not touch
      have hcA : c ∈ A := hc.resolve_right hcB
      refine (hf.painted m c hcA).congr fun k hk => hg.kept _ _ fun c' hc' => ?_
      have hne : c ≠ c' := fun h => hcB (h ▸ hc')
      have hapart := hV c (hA hcA) c' (hB hc') hne
      omega
  kept := by
    intro m b hb
    rw [hg.kept _ b fun c hc => hb c (Or.inr hc), hf.kept m b fun c hc => hb c (Or.inl hc)]

/-- **Cell by cell**, in any order and some of them more than once. -/
theorem foldl (hV : CellsApart place paint.length V) {put : ι → Mem → Mem} {cells : List ι}
    (hput : ∀ c ∈ cells, Paints place paint {c} (put c)) (hcells : ∀ c ∈ cells, c ∈ V) :
    Paints place paint {c | c ∈ cells} fun m => cells.foldl (fun m c => put c m) m := by
  induction cells with
  | nil =>
    have hempty : {c : ι | c ∈ ([] : List ι)} = ∅ := Set.eq_empty_of_forall_notMem fun c hc => by
      simp at hc
    rw [hempty]
    exact id
  | cons c cells ih =>
    have hcons : {d : ι | d ∈ c :: cells} = {c} ∪ {d | d ∈ cells} := by
      ext d
      simp
    obtain ⟨hhead, htail⟩ := List.forall_mem_cons.mp hput
    obtain ⟨hc, hrest⟩ := List.forall_mem_cons.mp hcells
    rw [hcons]
    exact comp hV (Set.singleton_subset_iff.mpr hc) hrest hhead (ih htail hrest)

end Paints

/-! ### Strokes -/

/-- **A function draws a stroke** on the cells of `V`, each of `n` bytes: a cell gets the bytes
that the stroke has for it, if any, and a byte that is not in `R` is left alone. -/
structure Draws (place : ι → ℕ) (n : ℕ) (V : Set ι) (R : Set ℕ) (stroke : ι → Option (List UInt8))
    (f : Mem → Mem) : Prop where
  drawn : ∀ m, ∀ c ∈ V, (f m).read (place c) n = (stroke c).getD (m.read (place c) n)
  kept : ∀ m, ∀ b ∉ R, f m b = m b

/-- **A picture in memory**: the bytes of each cell of `V`. -/
def Pictures (place : ι → ℕ) (n : ℕ) (V : Set ι) (picture : ι → List UInt8) (m : Mem) : Prop :=
  ∀ c ∈ V, m.read (place c) n = picture c

section Strokes

variable {place : ι → ℕ} {n : ℕ} {V A : Set ι} {R : Set ℕ} {f g : Mem → Mem} {m : Mem}
  {stroke stroke' : ι → Option (List UInt8)} {picture picture' : ι → List UInt8}
  {paint : List UInt8}

theorem Draws.id : Draws place n V R (fun _ => none) fun m => m where
  drawn := fun _ _ _ => rfl
  kept := fun _ _ _ => rfl

/-- **One stroke over the other.** -/
theorem Draws.comp (hf : Draws place n V R stroke f) (hg : Draws place n V R stroke' g) :
    Draws place n V R (fun c => (stroke' c).or (stroke c)) fun m => g (f m) where
  drawn := by
    intro m c hc
    rw [hg.drawn _ c hc, hf.drawn m c hc]
    cases stroke' c <;> rfl
  kept := fun m b hb => (hg.kept _ b hb).trans (hf.kept m b hb)

theorem Draws.congr (hf : Draws place n V R stroke f) (h : ∀ c ∈ V, stroke' c = stroke c) :
    Draws place n V R stroke' f where
  drawn := fun m c hc => by rw [h c hc, hf.drawn m c hc]
  kept := hf.kept

/-- A painter draws a stroke of one colour. -/
theorem Paints.draws [DecidablePred (· ∈ A)] (hV : CellsApart place paint.length V) (hA : A ⊆ V)
    (hR : ∀ c ∈ V, ∀ k < paint.length, place c + k ∈ R) (hf : Paints place paint A f) :
    Draws place paint.length V R (fun c => if c ∈ A then some paint else none) f where
  drawn := by
    intro m c hc
    split_ifs with hcA
    · exact hf.painted m c hcA
    · -- a cell that is not painted is apart from those that are
      refine Mem.read_congr fun k hk => hf.kept m _ fun c' hc' => ?_
      have hapart := hV c hc c' (hA hc') fun h => hcA (h ▸ hc')
      omega
  kept := by
    intro m b hb
    refine hf.kept m b fun c hc => ?_
    by_contra hcon
    refine hb ?_
    have hk := hR c (hA hc) (b - place c) (by omega)
    rwa [show place c + (b - place c) = b by omega] at hk

/-- **A stroke changes the picture.** -/
theorem Pictures.draws (h : Pictures place n V picture m) (hf : Draws place n V R stroke f) :
    Pictures place n V (fun c => (stroke c).getD (picture c)) (f m) := by
  intro c hc
  rw [hf.drawn m c hc, h c hc]

theorem Pictures.congr (h : Pictures place n V picture m) (heq : ∀ c ∈ V, picture' c = picture c) :
    Pictures place n V picture' m := fun c hc => (h c hc).trans (heq c hc).symm

end Strokes

end Xana
