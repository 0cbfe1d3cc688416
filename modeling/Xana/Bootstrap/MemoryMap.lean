import Xana.Bootstrap.MemoryInit

/-!
# What `memory_init` maps

`initMappings` is what the three loops enter, one after the other. An address is where it
should be at the offset if its page has been entered for the framebuffer, or else if its block
has been entered and no page of it has (`translate_toVirt_iff`). So the framebuffer does harm
where it begins or ends in the middle of a block that the memory reaches into, and it is not
all there if its last bytes are in a page that the loop does not come to.
-/

namespace Xana

namespace Bootstrap

/-- **What the tables are for.** -/
structure MapsAll (b : State) (root totalMemory fbAddr fbSize : ℕ) : Prop where
  memory : ∀ a < totalMemory, b.translate root (toVirt a) = some a
  framebuffer : ∀ k < fbSize, b.translate root (toVirt (fbAddr + k)) = some (fbAddr + k)
  low : ∀ a < 0x1000000, b.translate root a = some a

/-- The number of pages that are entered for the framebuffer. -/
def fbPages (fbAddr fbSize : ℕ) : ℕ := rounds fbAddr ((fbAddr + fbSize) % 2 ^ 32) 0x1000

/-- What the three loops enter. -/
def initMappings (totalMemory fbAddr fbSize : ℕ) : Mappings :=
  ((Mappings.empty.enterBlocks toVirt 0 (rounds 0 totalMemory 0x200000)).enterPages id 0
    (rounds 0 0x1000000 0x1000)).enterPages toVirt fbAddr (fbPages fbAddr fbSize)

/-! ### Where an address is -/

section Addresses

variable {totalMemory fbAddr fbSize x i q : ℕ}

theorem toVirt_of_lt (hx : x < 2 ^ 39) : toVirt x = x + virtMemOffset := by
  have hvirt : virtMemOffset = 2 ^ 64 - 2 ^ 39 := by decide
  rw [toVirt, Nat.mod_eq_of_lt (by omega)]

theorem pageOf_toVirt (hx : x < 2 ^ 39) : pageOf (toVirt x) = 2 ^ 36 - 2 ^ 27 + x / 2 ^ 12 := by
  have hvirt : virtMemOffset = 2 ^ 64 - 2 ^ 39 := by decide
  rw [toVirt_of_lt hx, pageOf, hvirt]
  omega

theorem blockOf_toVirt (hx : x < 2 ^ 39) : blockOf (toVirt x) = 2 ^ 27 - 2 ^ 18 + x / 2 ^ 21 := by
  rw [blockOf_eq, pageOf_toVirt hx]
  omega

theorem toVirt_mod (hx : x < 2 ^ 39) :
    toVirt x % 2 ^ 12 = x % 2 ^ 12 ∧ toVirt x % 2 ^ 21 = x % 2 ^ 21 := by
  have hvirt : virtMemOffset = 2 ^ 64 - 2 ^ 39 := by decide
  rw [toVirt_of_lt hx, hvirt]
  omega

/-- The pages of the framebuffer are below 4 GiB. -/
theorem fbAddr_add_lt (hi : i < fbPages fbAddr fbSize) : fbAddr + i * 0x1000 < 2 ^ 32 := by
  have hlt := (lt_rounds_iff (by decide)).mp hi
  omega

/-- The pages that have been entered. -/
theorem pages_initMappings (hfb : fbAddr < 2 ^ 32) (q : ℕ) :
    (initMappings totalMemory fbAddr fbSize).pages q =
      if 2 ^ 36 - 2 ^ 27 + fbAddr / 2 ^ 12 ≤ q ∧
          q < 2 ^ 36 - 2 ^ 27 + fbAddr / 2 ^ 12 + fbPages fbAddr fbSize then
        some (fbAddr / 2 ^ 12 + (q - (2 ^ 36 - 2 ^ 27 + fbAddr / 2 ^ 12)))
      else if q < 4096 then some q else none := by
  have hcount : rounds 0 0x1000000 0x1000 = 4096 := by decide
  have hlow : ∀ q, ((Mappings.empty.enterBlocks toVirt 0
      (rounds 0 totalMemory 0x200000)).enterPages id 0 4096).pages q =
        if q < 4096 then some q else none := by
    intro q
    rw [Mappings.pages_enterPages 0 0]
    · simp only [Nat.zero_le, true_and, Nat.zero_add, Nat.sub_zero]
      rw [Mappings.pages_enterBlocks]
      rfl
    · intro i hi
      simp only [id_eq, pageOf]
      omega
    · intro i _
      omega
    · intro i _
      rw [Mappings.pages_enterBlocks]
      rfl
  rw [initMappings, hcount, Mappings.pages_enterPages (2 ^ 36 - 2 ^ 27 + fbAddr / 2 ^ 12)
    (fbAddr / 2 ^ 12), hlow]
  · intro i hi
    have hlt := fbAddr_add_lt hi
    rw [pageOf_toVirt (by omega)]
    omega
  · intro i _
    omega
  · intro i _
    rw [hlow, if_neg (by omega)]

@[simp] theorem large_initMappings : (initMappings totalMemory fbAddr fbSize).large =
    (Mappings.empty.enterBlocks toVirt 0 (rounds 0 totalMemory 0x200000)).large := by
  rw [initMappings, Mappings.large_enterPages, Mappings.large_enterPages]

/-- The page of an address at the offset. -/
theorem pages_toVirt (hfb : fbAddr < 2 ^ 32) (hx : x < 2 ^ 39) :
    (initMappings totalMemory fbAddr fbSize).pages (pageOf (toVirt x)) =
      if fbAddr / 2 ^ 12 ≤ x / 2 ^ 12 ∧ x / 2 ^ 12 < fbAddr / 2 ^ 12 + fbPages fbAddr fbSize then
        some (x / 2 ^ 12) else none := by
  rw [pages_initMappings hfb, pageOf_toVirt hx]
  by_cases hin : fbAddr / 2 ^ 12 ≤ x / 2 ^ 12 ∧
      x / 2 ^ 12 < fbAddr / 2 ^ 12 + fbPages fbAddr fbSize
  · rw [if_pos (by omega), if_pos hin]
    congr 1
    omega
  · rw [if_neg (by omega), if_neg (by omega), if_neg hin]

/-- A block at the offset has a page of its own if one has been entered for the framebuffer. -/
theorem split_toVirt (hfb : fbAddr < 2 ^ 32) (hx : x < 2 ^ 39) :
    (initMappings totalMemory fbAddr fbSize).Split (blockOf (toVirt x)) ↔
      ∃ q, fbAddr / 2 ^ 12 ≤ q ∧ q < fbAddr / 2 ^ 12 + fbPages fbAddr fbSize ∧
        q / 512 = x / 2 ^ 21 := by
  rw [Mappings.Split, blockOf_toVirt hx]
  constructor
  · rintro ⟨q, hq, hpage⟩
    rw [pages_initMappings hfb] at hpage
    split_ifs at hpage with hin hlow
    · exact ⟨q - (2 ^ 36 - 2 ^ 27), by omega, by omega, by omega⟩
    · omega
    · exact absurd rfl hpage
  · rintro ⟨q, hle, hlt, hq⟩
    refine ⟨2 ^ 36 - 2 ^ 27 + q, by omega, ?_⟩
    rw [pages_initMappings hfb, if_pos (by omega)]
    simp

/-- The block of an address at the offset. -/
theorem large_toVirt (htotal : totalMemory ≤ 2 ^ 39) (hx : x < 2 ^ 39) :
    (initMappings totalMemory fbAddr fbSize).large (blockOf (toVirt x)) =
      if x / 2 ^ 21 * 2 ^ 21 < totalMemory then some (x / 2 ^ 21) else none := by
  have hblock : ∀ i < rounds 0 totalMemory 0x200000, 0 + i * 0x200000 < totalMemory :=
    fun i hi => (lt_rounds_iff (by decide)).mp hi
  have hcount : x / 2 ^ 21 < rounds 0 totalMemory 0x200000 ↔ x / 2 ^ 21 * 2 ^ 21 < totalMemory := by
    rw [lt_rounds_iff (by decide)]
    omega
  rw [large_initMappings, Mappings.large_enterBlocks (2 ^ 27 - 2 ^ 18) 0, blockOf_toVirt hx]
  · by_cases hlt : x / 2 ^ 21 * 2 ^ 21 < totalMemory
    · have hin := hcount.mpr hlt
      rw [if_pos (by omega), if_pos hlt, Nat.add_sub_cancel_left, Nat.zero_add]
    · have hout := mt hcount.mp hlt
      rw [if_neg (by omega), if_neg hlt]
      rfl
  · intro i hi
    have hlt := hblock i hi
    rw [blockOf_toVirt (by omega)]
    omega
  · intro i hi
    omega

/-- **When an address is where it should be at the offset.** -/
theorem translate_toVirt_iff (hfb : fbAddr < 2 ^ 32) (htotal : totalMemory ≤ 2 ^ 39)
    (hx : x < 2 ^ 39) :
    (initMappings totalMemory fbAddr fbSize).translate (toVirt x) = some x ↔
      (fbAddr / 2 ^ 12 ≤ x / 2 ^ 12 ∧ x / 2 ^ 12 < fbAddr / 2 ^ 12 + fbPages fbAddr fbSize) ∨
        (¬∃ q, fbAddr / 2 ^ 12 ≤ q ∧ q < fbAddr / 2 ^ 12 + fbPages fbAddr fbSize ∧
          q / 512 = x / 2 ^ 21) ∧ x / 2 ^ 21 * 2 ^ 21 < totalMemory := by
  obtain ⟨hmod₁₂, hmod₂₁⟩ := toVirt_mod hx
  rw [Mappings.translate, pages_toVirt hfb hx, large_toVirt htotal hx, hmod₁₂, hmod₂₁,
    ← split_toVirt hfb hx]
  by_cases hsplit : (initMappings totalMemory fbAddr fbSize).Split (blockOf (toVirt x))
  · rw [if_pos hsplit, or_iff_left fun hc => hc.1 hsplit]
    by_cases hin : fbAddr / 2 ^ 12 ≤ x / 2 ^ 12 ∧
        x / 2 ^ 12 < fbAddr / 2 ^ 12 + fbPages fbAddr fbSize
    · rw [if_pos hin, Option.map_some, Nat.div_add_mod']
      exact iff_of_true rfl hin
    · rw [if_neg hin]
      exact iff_of_false (by simp) hin
  · have hnot : ¬(fbAddr / 2 ^ 12 ≤ x / 2 ^ 12 ∧
        x / 2 ^ 12 < fbAddr / 2 ^ 12 + fbPages fbAddr fbSize) := by
      intro hin
      refine hsplit ((split_toVirt hfb hx).mpr ⟨x / 2 ^ 12, hin.1, hin.2, ?_⟩)
      omega
    rw [if_neg hsplit, or_iff_right hnot, and_iff_right hsplit]
    by_cases hlt : x / 2 ^ 21 * 2 ^ 21 < totalMemory
    · rw [if_pos hlt, Option.map_some, Nat.div_add_mod']
      exact iff_of_true rfl hlt
    · rw [if_neg hlt]
      exact iff_of_false (by simp) hlt

/-- **The first 16 MiB are where they are.** -/
theorem translate_low (hfb : fbAddr < 2 ^ 32) (hx : x < 0x1000000) :
    (initMappings totalMemory fbAddr fbSize).translate x = some x := by
  have hpageOf : pageOf x = x / 2 ^ 12 := by
    rw [pageOf]
    omega
  have hpage : (initMappings totalMemory fbAddr fbSize).pages (pageOf x) = some (x / 2 ^ 12) := by
    rw [pages_initMappings hfb, hpageOf, if_neg (by omega), if_pos (by omega)]
  have hsplit : (initMappings totalMemory fbAddr fbSize).Split (blockOf x) :=
    Mappings.split_of_page (by rw [hpage]; simp)
  rw [Mappings.translate, if_pos hsplit, hpage, Option.map_some, Nat.div_add_mod']

end Addresses

/-! ### Whether the framebuffer fits -/

/-- The page behind the last one that is entered for the framebuffer. -/
def fbEnd (fbAddr fbSize : ℕ) : ℕ := fbAddr / 2 ^ 12 + fbPages fbAddr fbSize

/-- **What the memory and the framebuffer have to be like.** The offset is 512 GiB below the
end of all addresses. A block in which the framebuffer's pages begin or end is not in memory
from there on. What is not in these pages – the last bytes, if the address is not that of a
page, or all of it, if the end is not below 4 GiB – is in blocks that are. -/
structure FramebufferFits (totalMemory fbAddr fbSize : ℕ) : Prop where
  offset : totalMemory ≤ 2 ^ 39
  begins : fbPages fbAddr fbSize ≠ 0 →
    fbAddr / 2 ^ 12 % 512 = 0 ∨ totalMemory ≤ fbAddr / 2 ^ 12 / 512 * 2 ^ 21
  ends : fbPages fbAddr fbSize ≠ 0 →
    fbEnd fbAddr fbSize % 512 = 0 ∨ totalMemory ≤ fbEnd fbAddr fbSize * 2 ^ 12
  covered : if fbPages fbAddr fbSize = 0 then
      fbSize = 0 ∨ (fbAddr + fbSize - 1) / 2 ^ 21 * 2 ^ 21 < totalMemory
    else fbAddr + fbSize ≤ fbEnd fbAddr fbSize * 2 ^ 12 ∨
      fbEnd fbAddr fbSize % 512 = 0 ∧ fbEnd fbAddr fbSize * 2 ^ 12 < totalMemory

section Fits

variable {totalMemory fbAddr fbSize x : ℕ}

/-- An address is in a page that has been entered for the framebuffer, or in a block that has
been entered and keeps what it is. -/
def Placed (totalMemory fbAddr fbSize x : ℕ) : Prop :=
  (fbAddr / 2 ^ 12 ≤ x / 2 ^ 12 ∧ x / 2 ^ 12 < fbAddr / 2 ^ 12 + fbPages fbAddr fbSize) ∨
    (¬∃ q, fbAddr / 2 ^ 12 ≤ q ∧ q < fbAddr / 2 ^ 12 + fbPages fbAddr fbSize ∧
      q / 512 = x / 2 ^ 21) ∧ x / 2 ^ 21 * 2 ^ 21 < totalMemory

theorem fbPages_eq (hfb : fbAddr < 2 ^ 32) (hsize : fbSize < 2 ^ 32) :
    fbPages fbAddr fbSize =
      if fbAddr + fbSize < 2 ^ 32 then (fbSize + 0xFFF) / 2 ^ 12 else 0 := by
  rw [fbPages, rounds]
  split_ifs <;> omega

/-- **When all of the memory is placed.** -/
theorem forall_memory_placed_iff :
    (∀ a < totalMemory, Placed totalMemory fbAddr fbSize a) ↔
      (fbPages fbAddr fbSize ≠ 0 →
        fbAddr / 2 ^ 12 % 512 = 0 ∨ totalMemory ≤ fbAddr / 2 ^ 12 / 512 * 2 ^ 21) ∧
      (fbPages fbAddr fbSize ≠ 0 →
        fbEnd fbAddr fbSize % 512 = 0 ∨ totalMemory ≤ fbEnd fbAddr fbSize * 2 ^ 12) := by
  simp only [Placed, fbEnd]
  generalize fbPages fbAddr fbSize = r
  constructor
  · intro h
    refine ⟨fun hr => ?_, fun hr => ?_⟩
    · -- the beginning of the first block
      by_contra hno
      obtain ⟨hmod, hlt⟩ := not_or.mp hno
      rcases h (fbAddr / 2 ^ 12 / 512 * 2 ^ 21) (by omega) with hin | ⟨hout, -⟩
      · omega
      · exact hout ⟨fbAddr / 2 ^ 12, le_rfl, by omega, by omega⟩
    · -- the first byte behind the last page
      by_contra hno
      obtain ⟨hmod, hlt⟩ := not_or.mp hno
      rcases h ((fbAddr / 2 ^ 12 + r) * 2 ^ 12) (by omega) with hin | ⟨hout, -⟩
      · omega
      · exact hout ⟨fbAddr / 2 ^ 12 + r - 1, by omega, by omega, by omega⟩
  · rintro ⟨hfirst, hlast⟩ a ha
    by_cases hin : fbAddr / 2 ^ 12 ≤ a / 2 ^ 12 ∧ a / 2 ^ 12 < fbAddr / 2 ^ 12 + r
    · exact Or.inl hin
    · refine Or.inr ⟨?_, by omega⟩
      rintro ⟨q, hle, hlt, hq⟩
      have hr : r ≠ 0 := by omega
      have hfirst := hfirst hr
      have hlast := hlast hr
      omega

/-- **When all of the framebuffer is placed.** -/
theorem forall_framebuffer_placed_iff (hfb : fbAddr < 2 ^ 32) (hsize : fbSize < 2 ^ 32) :
    (∀ k < fbSize, Placed totalMemory fbAddr fbSize (fbAddr + k)) ↔
      if fbPages fbAddr fbSize = 0 then
        fbSize = 0 ∨ (fbAddr + fbSize - 1) / 2 ^ 21 * 2 ^ 21 < totalMemory
      else fbAddr + fbSize ≤ fbEnd fbAddr fbSize * 2 ^ 12 ∨
        fbEnd fbAddr fbSize % 512 = 0 ∧ fbEnd fbAddr fbSize * 2 ^ 12 < totalMemory := by
  have hpages := fbPages_eq hfb hsize
  rw [fbEnd]
  simp only [Placed]
  generalize fbPages fbAddr fbSize = r at hpages ⊢
  by_cases hr : r = 0
  · -- no page is entered
    subst hr
    rw [if_pos rfl]
    constructor
    · intro h
      by_cases hzero : fbSize = 0
      · exact Or.inl hzero
      · rcases h (fbSize - 1) (by omega) with hin | ⟨-, hlt⟩
        · omega
        · have haddr : fbAddr + (fbSize - 1) = fbAddr + fbSize - 1 := by omega
          rw [haddr] at hlt
          exact Or.inr hlt
    · intro h k hk
      refine Or.inr ⟨?_, by omega⟩
      rintro ⟨q, hle, hlt, -⟩
      omega
  · rw [if_neg hr]
    have hsum : fbAddr + fbSize < 2 ^ 32 := by
      by_contra hno
      exact hr (hpages.trans (if_neg hno))
    rw [if_pos hsum] at hpages
    constructor
    · intro h
      by_contra hno
      obtain ⟨hlong, hout⟩ := not_or.mp hno
      -- the first byte behind the last page
      have haddr : fbAddr + ((fbAddr / 2 ^ 12 + r) * 2 ^ 12 - fbAddr) =
          (fbAddr / 2 ^ 12 + r) * 2 ^ 12 := by omega
      have hbyte := h ((fbAddr / 2 ^ 12 + r) * 2 ^ 12 - fbAddr) (by omega)
      rw [haddr] at hbyte
      rcases hbyte with hin | ⟨hsplit, hlt⟩
      · omega
      · by_cases hmod : (fbAddr / 2 ^ 12 + r) % 512 = 0
        · have hwhole : (fbAddr / 2 ^ 12 + r) * 2 ^ 12 / 2 ^ 21 * 2 ^ 21 =
              (fbAddr / 2 ^ 12 + r) * 2 ^ 12 := by omega
          rw [hwhole] at hlt
          exact hout ⟨hmod, hlt⟩
        · exact hsplit ⟨fbAddr / 2 ^ 12 + r - 1, by omega, by omega, by omega⟩
    · intro h k hk
      by_cases hin : (fbAddr + k) / 2 ^ 12 < fbAddr / 2 ^ 12 + r
      · exact Or.inl ⟨by omega, hin⟩
      · -- only the bytes of one page are left
        refine Or.inr ⟨?_, by omega⟩
        rintro ⟨q, hle, hlt, hq⟩
        omega

theorem framebufferFits_iff (hfb : fbAddr < 2 ^ 32) (hsize : fbSize < 2 ^ 32) :
    FramebufferFits totalMemory fbAddr fbSize ↔ totalMemory ≤ 2 ^ 39 ∧
      (∀ a < totalMemory, Placed totalMemory fbAddr fbSize a) ∧
      ∀ k < fbSize, Placed totalMemory fbAddr fbSize (fbAddr + k) := by
  rw [forall_memory_placed_iff, forall_framebuffer_placed_iff hfb hsize]
  constructor
  · rintro ⟨h₁, h₂, h₃, h₄⟩
    exact ⟨h₁, ⟨h₂, h₃⟩, h₄⟩
  · rintro ⟨h₁, ⟨h₂, h₃⟩, h₄⟩
    exact ⟨h₁, h₂, h₃, h₄⟩

end Fits

/-! ### `memory_init` -/

section Init

variable {b b' : State} {root n maxAddr totalMemory fbAddr fbSize : ℕ}

/-- The root is the first thing that is allocated. -/
theorem shows_root (hmax : maxAddr < kernelLoadAddr) {b₁ : State}
    (h : kmallocA { b with kheapLoc := maxAddr % 2 ^ 32 } pageDirectorySize 0x1000 =
      some (root, b₁)) :
    Shows ((b₁.clearDir root).setPhysAddr root root) root Mappings.empty ∧
      ((b₁.clearDir root).setPhysAddr root root).kheapLoc ≤ maxAddr + tableRoom := by
  have hlimit : kernelLoadAddr = 0x800000 := rfl
  have hsize : pageDirectorySize = 8712 := rfl
  have hroom : tableRoom = 0x4000 := rfl
  have hmod : maxAddr % 2 ^ 32 = maxAddr := Nat.mod_eq_of_lt (by omega)
  rw [hmod, kmallocA_eq hmax (by omega)] at h
  dsimp only at h
  split_ifs at h with hlt
  obtain ⟨hroot, rfl⟩ := Prod.mk.inj (Option.some.inj h)
  have hkheap : (((({ b with kheapLoc := (maxAddr + 0xFFF) / 0x1000 * 0x1000 + pageDirectorySize } :
      State).clearDir root).setPhysAddr root root)).kheapLoc = root + pageDirectorySize := by
    rw [← hroot]
    rfl
  refine ⟨shows_empty ?_ hkheap ?_ ?_ ?_, ?_⟩
  · rw [← hroot]
    exact Nat.mul_mod_left _ _
  · rw [hkheap, ← hroot]
    exact hlt
  · intro i
    simp [State.setPhysAddr, State.clearDir, PageDirectory.zero]
  · intro i
    simp [State.setPhysAddr, State.clearDir, PageDirectory.zero]
  · rw [hkheap]
    omega

/-- A loop that returns has not wrapped. -/
theorem bound_le_of_forAddr {body : ℕ → State → Option State} {bound stride addr : ℕ}
    (hstride : stride ∣ 2 ^ 64) (haddr : stride ∣ addr) (hlt : addr < 2 ^ 64)
    (h : forAddr body bound stride n addr b = some b') : bound + stride ≤ 2 ^ 64 := by
  by_contra hbound
  rw [forAddr_eq_none hstride haddr hlt (by omega)] at h
  exact absurd h (by simp)

/-- **What `memory_init` has built** when it returns. -/
theorem shows_memoryInit (hmax : maxAddr < kernelLoadAddr)
    (h : memoryInit n maxAddr totalMemory fbAddr fbSize b = some (root, b')) :
    Shows b' root (initMappings totalMemory fbAddr fbSize) := by
  simp only [memoryInit, Option.bind_eq_bind, Option.bind_eq_some_iff] at h
  obtain ⟨⟨pml4, b₁⟩, hroot, b₂, hblocks, b₃, hlow, b₄, hframes, hres⟩ := h
  obtain ⟨rfl, rfl⟩ := Prod.mk.inj (Option.some.inj hres)
  obtain ⟨hshows, -⟩ := shows_root hmax hroot
  have hbound : totalMemory + 0x200000 ≤ 2 ^ 64 :=
    bound_le_of_forAddr (by decide) (Nat.dvd_zero _) (by decide) hblocks
  have hmemory := hshows.mapBlocks (fun _ => rfl) hbound hblocks
  have hidentity := hmemory.mapPages (by decide) hlow
  exact hidentity.mapPages (by omega) hframes

/-- The memory that `memory_init` may need, from `multiboot_max_addr` on: for the root, for the
tables of the memory, of the first 16 MiB and of the framebuffer. -/
def initRoom (totalMemory fbAddr fbSize : ℕ) : ℕ :=
  tableRoom + groups 0 (rounds 0 totalMemory 0x200000) * (2 * tableRoom) + 8 * (3 * tableRoom) +
    groups (fbAddr / 2 ^ 12 % 512) (fbPages fbAddr fbSize) * (3 * tableRoom)

/-- There is room for the tables of at most 256 GiB. -/
theorem totalMemory_le
    (h : groups 0 (rounds 0 totalMemory 0x200000) * (2 * tableRoom) ≤ kernelLoadAddr) :
    totalMemory ≤ 2 ^ 38 := by
  have hlimit : kernelLoadAddr = 0x800000 := rfl
  have htable : tableRoom = 0x4000 := rfl
  rw [htable, hlimit] at h
  have hgroups : groups 0 (rounds 0 totalMemory 0x200000) ≤ 256 := by omega
  rw [groups, rounds] at hgroups
  split_ifs at hgroups <;> omega

variable (n maxAddr totalMemory fbAddr fbSize b) in
/-- **`memory_init` returns** if there is room. -/
theorem exists_memoryInit
    (hroom : maxAddr + initRoom totalMemory fbAddr fbSize ≤ kernelLoadAddr)
    (hmemory : rounds 0 totalMemory 0x200000 < n) (hlow : 4096 < n)
    (hframe : fbPages fbAddr fbSize < n) :
    ∃ root b', memoryInit n maxAddr totalMemory fbAddr fbSize b = some (root, b') := by
  have hlimit : kernelLoadAddr = 0x800000 := rfl
  have hsize : pageDirectorySize = 8712 := rfl
  have htable : tableRoom = 0x4000 := rfl
  rw [initRoom] at hroom
  have hcount : rounds 0 0x1000000 0x1000 = 4096 := by decide
  have height : groups 0 4096 = 8 := by decide
  have htotal : totalMemory ≤ 2 ^ 38 := totalMemory_le (by omega)
  -- the root
  have hmod : maxAddr % 2 ^ 32 = maxAddr := Nat.mod_eq_of_lt (by omega)
  obtain ⟨root, b₁, hroot⟩ : ∃ root b₁, kmallocA { b with kheapLoc := maxAddr % 2 ^ 32 }
      pageDirectorySize 0x1000 = some (root, b₁) := by
    rw [hmod, kmallocA_eq (by dsimp only; omega) (by omega)]
    dsimp only
    rw [if_pos (by omega)]
    exact ⟨_, _, rfl⟩
  obtain ⟨hshows, hle⟩ := shows_root (by omega) hroot
  -- the three loops
  have hbase : ∀ i < rounds 0 totalMemory 0x200000, blockOf (toVirt (0 + i * 0x200000)) =
      2 ^ 27 - 2 ^ 18 + i := fun i hi => by
    have hlt := (lt_rounds_iff (by decide)).mp hi
    rw [blockOf_toVirt (by omega)]
    omega
  have hzero : (2 ^ 27 - 2 ^ 18) % 512 = 0 := by decide
  obtain ⟨b₂, hblocks, hshows₂, hle₂⟩ := hshows.mapBlocks_returns (fun _ => rfl) (by omega) hbase
    (by rw [hzero]; omega) hmemory
  rw [hzero] at hle₂
  have hident : ∀ i < rounds 0 0x1000000 0x1000, pageOf (id (0 + i * 0x1000)) = 0 + i :=
    fun i hi => by
      rw [hcount] at hi
      simp only [id_eq, pageOf]
      omega
  obtain ⟨b₃, hpages, hshows₃, hle₃⟩ := hshows₂.mapPages_returns (by decide) hident
    (by rw [hcount, Nat.zero_mod, height]; omega) (by rwa [hcount])
  rw [hcount, Nat.zero_mod, height] at hle₃
  have hfirst : (2 ^ 36 - 2 ^ 27 + fbAddr / 2 ^ 12) % 512 = fbAddr / 2 ^ 12 % 512 := by omega
  have hpage : ∀ i < fbPages fbAddr fbSize, pageOf (toVirt (fbAddr + i * 0x1000)) =
      2 ^ 36 - 2 ^ 27 + fbAddr / 2 ^ 12 + i := fun i hi => by
    have hlt := fbAddr_add_lt hi
    rw [pageOf_toVirt (by omega)]
    omega
  obtain ⟨b₄, hframes, -, -⟩ := hshows₃.mapPages_returns (by omega) hpage
    (by rw [hfirst, ← fbPages]; omega) hframe
  refine ⟨root, b₄, ?_⟩
  simp only [memoryInit, hroot, hblocks, hpages, hframes, Option.bind_eq_bind, Option.bind_some,
    Option.pure_def]

/-- Above 512 GiB the offset leads around to the beginning. -/
theorem toVirt_two_pow : toVirt (2 ^ 39) = 0 := by decide

/-- What the tables are for, address by address. -/
theorem Shows.mapsAll_iff_placed (h : Shows b root (initMappings totalMemory fbAddr fbSize))
    (hfb : fbAddr < 2 ^ 32) (hsize : fbSize < 2 ^ 32) :
    MapsAll b root totalMemory fbAddr fbSize ↔ totalMemory ≤ 2 ^ 39 ∧
      (∀ a < totalMemory, Placed totalMemory fbAddr fbSize a) ∧
      ∀ k < fbSize, Placed totalMemory fbAddr fbSize (fbAddr + k) := by
  have htranslate : ∀ v, b.translate root v =
      (initMappings totalMemory fbAddr fbSize).translate v := fun _ => h.translate_eq
  have hlow : ∀ a < 0x1000000, b.translate root a = some a := fun a ha =>
    (htranslate a).trans (translate_low hfb ha)
  have hplaced : totalMemory ≤ 2 ^ 39 → ∀ x < 2 ^ 39,
      (b.translate root (toVirt x) = some x ↔ Placed totalMemory fbAddr fbSize x) :=
    fun htotal x hx => by
      rw [htranslate]
      exact translate_toVirt_iff hfb htotal hx
  constructor
  · rintro ⟨hmemory, hframe, -⟩
    have htotal : totalMemory ≤ 2 ^ 39 := by
      by_contra hlt
      have hwrap := hmemory (2 ^ 39) (by omega)
      rw [toVirt_two_pow, hlow 0 (by decide)] at hwrap
      exact absurd (Option.some.inj hwrap) (by decide)
    exact ⟨htotal, fun a ha => (hplaced htotal a (by omega)).mp (hmemory a ha),
      fun k hk => (hplaced htotal _ (by omega)).mp (hframe k hk)⟩
  · rintro ⟨htotal, hmemory, hframe⟩
    exact ⟨fun a ha => (hplaced htotal a (by omega)).mpr (hmemory a ha),
      fun k hk => (hplaced htotal _ (by omega)).mpr (hframe k hk), hlow⟩

/-- **When everything is mapped** after `memory_init`. -/
theorem mapsAll_iff (hmax : maxAddr < kernelLoadAddr) (hfb : fbAddr < 2 ^ 32)
    (hsize : fbSize < 2 ^ 32)
    (h : memoryInit n maxAddr totalMemory fbAddr fbSize b = some (root, b')) :
    MapsAll b' root totalMemory fbAddr fbSize ↔ FramebufferFits totalMemory fbAddr fbSize :=
  ((shows_memoryInit hmax h).mapsAll_iff_placed hfb hsize).trans
    (framebufferFits_iff hfb hsize).symm

/-- The loader before anything has been allocated. -/
def emptyState : State := ⟨0, fun _ => PageDirectory.zero, fun _ _ => 0⟩

/-- 128 MiB of memory, and a framebuffer of 3 MiB high above it. -/
theorem mapsAll_apart : ∃ root b', memoryInit 5000 0x300000 0x8000000 0xFD000000 0x300000
    emptyState = some (root, b') ∧ MapsAll b' root 0x8000000 0xFD000000 0x300000 := by
  obtain ⟨root, b', h⟩ := exists_memoryInit emptyState 5000 0x300000 0x8000000 0xFD000000
    0x300000 (by decide) (by decide) (by decide) (by decide)
  refine ⟨root, b', h, (mapsAll_iff (by decide) (by decide) (by decide) h).mpr ⟨?_, ?_, ?_, ?_⟩⟩
  · decide
  · decide
  · decide
  · decide

/-- With 4 GiB the framebuffer ends in the middle of a block of the memory, which has no page
behind it. -/
theorem not_mapsAll : ¬∀ n maxAddr totalMemory fbAddr fbSize b root b',
    maxAddr < kernelLoadAddr → fbAddr < 2 ^ 32 → fbSize < 2 ^ 32 →
    memoryInit n maxAddr totalMemory fbAddr fbSize b = some (root, b') →
      MapsAll b' root totalMemory fbAddr fbSize := by
  intro hall
  obtain ⟨root, b', h⟩ := exists_memoryInit emptyState 5000 0x300000 0x100000000 0xFD000000
    0x300000 (by decide) (by decide) (by decide) (by decide)
  have hmaps := hall _ _ _ _ _ _ _ _ (by decide) (by decide) (by decide) h
  have hshows := shows_memoryInit (by decide) h
  have hfits := (framebufferFits_iff (by decide) (by decide)).mpr
    ((hshows.mapsAll_iff_placed (by decide) (by decide)).mp hmaps)
  exact absurd (hfits.ends (by decide)) (by decide)

end Init

end Bootstrap

end Xana
