import Xana.Video.Erase

/-!
# Scrolling

`scroll` moves the lines of the framebuffer up with `memcpy`, whose source and destination
overlap as soon as more than half of the lines stay. The copy runs upwards, and the buffer
begins at a multiple of eight, so that no byte is written before it has been read
(`Xana.memcpy_of_aligned`); then the last lines are cleared.
-/

namespace Xana

open Mem

namespace Framebuffer

/-- `scroll`, in a linear mode. -/
def scroll (fb : Framebuffer) (nPixels : ℕ) (m : Mem) : Mem :=
  let left := (fb.height + 2 ^ 32 - nPixels) % 2 ^ 32
  let m := memcpy m fb.video (fb.video + nPixels * fb.pitch % 2 ^ 32) (left * fb.pitch % 2 ^ 32)
  memset m (fb.video + left * fb.pitch % 2 ^ 32) 0 (nPixels * fb.pitch % 2 ^ 32)

section Scroll

variable {fb : Framebuffer} {m : Mem} {n r j b : ℕ}

/-- **What is written**: the lines from the `n`-th on, and zeros behind them. -/
theorem scroll_eq (hsize : fb.pitch * fb.height < 2 ^ 32) (hheight : fb.height < 2 ^ 32)
    (haligned : fb.video % 8 = 0) (hn : n ≤ fb.height) : fb.scroll n m =
      m.write fb.video (m.read (fb.video + n * fb.pitch) ((fb.height - n) * fb.pitch) ++
        List.replicate (n * fb.pitch) 0) := by
  have hleft : (fb.height + 2 ^ 32 - n) % 2 ^ 32 = fb.height - n := by omega
  have hsum : (fb.height - n) * fb.pitch + n * fb.pitch = fb.pitch * fb.height := by
    rw [← Nat.add_mul, Nat.sub_add_cancel hn, Nat.mul_comm]
  have hstay : (fb.height - n) * fb.pitch % 2 ^ 32 = (fb.height - n) * fb.pitch :=
    Nat.mod_eq_of_lt (by omega)
  have hgone : n * fb.pitch % 2 ^ 32 = n * fb.pitch := Nat.mod_eq_of_lt (by omega)
  have hjoin := write_write m fb.video
    (m.read (fb.video + n * fb.pitch) ((fb.height - n) * fb.pitch))
    (List.replicate (n * fb.pitch) 0)
  rw [length_read] at hjoin
  simp only [scroll, hleft, hstay, hgone]
  rw [memcpy_of_aligned haligned (Or.inl (Nat.le_add_right _ _)), memset_eq, hjoin]

/-- **After a scroll** the lines have moved up, and the last ones are zero. -/
theorem scroll_lines (hsize : fb.pitch * fb.height < 2 ^ 32) (haligned : fb.video % 8 = 0)
    (hn : n ≤ fb.height) :
    (∀ r < fb.height - n, ∀ j < fb.pitch,
        fb.scroll n m (fb.video + r * fb.pitch + j) = m (fb.video + (r + n) * fb.pitch + j)) ∧
      ∀ r, fb.height - n ≤ r → r < fb.height → ∀ j < fb.pitch,
        fb.scroll n m (fb.video + r * fb.pitch + j) = 0 := by
  have hheight : ∀ {j}, j < fb.pitch → fb.height < 2 ^ 32 := fun hj =>
    (Nat.le_mul_of_pos_left _ (Nat.zero_lt_of_lt hj)).trans_lt hsize
  constructor
  · -- a line that has moved
    intro r hr j hj
    have hline : r * fb.pitch + fb.pitch ≤ (fb.height - n) * fb.pitch := by
      rw [← Nat.succ_mul]
      exact Nat.mul_le_mul_right _ hr
    rw [scroll_eq hsize (hheight hj) haligned hn, Nat.add_assoc,
      write_add (by rw [List.length_append, length_read]; omega),
      List.getElem_append_left (by rw [length_read]; omega)]
    have hbyte := getElem?_read (m := m) (a := fb.video + n * fb.pitch)
      (n := r * fb.pitch + j) (k := (fb.height - n) * fb.pitch) (by omega)
    rw [List.getElem?_eq_getElem (by rw [length_read]; omega), Option.some_inj] at hbyte
    rw [hbyte, Nat.add_mul]
    congr 1
    omega
  · -- a line that has been cleared
    intro r hle hr j hj
    have hstart : (fb.height - n) * fb.pitch ≤ r * fb.pitch := Nat.mul_le_mul_right _ hle
    have hend : r * fb.pitch + fb.pitch ≤ fb.height * fb.pitch := by
      rw [← Nat.succ_mul]
      exact Nat.mul_le_mul_right _ hr
    have hsum : (fb.height - n) * fb.pitch + n * fb.pitch = fb.height * fb.pitch := by
      rw [← Nat.add_mul, Nat.sub_add_cancel hn]
    rw [scroll_eq hsize (hheight hj) haligned hn, Nat.add_assoc,
      write_add (by rw [List.length_append, length_read, List.length_replicate]; omega),
      List.getElem_append_right (by rw [length_read]; omega), List.getElem_replicate]

theorem scroll_lines_small :
    smallFramebuffer.scroll 1 countingMem (0x1000 + 2 * 35 + 30) =
      countingMem (0x1000 + 3 * 35 + 30) :=
  (@scroll_lines smallFramebuffer countingMem 1 (by decide) (by decide) (by decide)).1 2
    (by decide) 30 (by decide)

end Scroll

end Framebuffer

end Xana
