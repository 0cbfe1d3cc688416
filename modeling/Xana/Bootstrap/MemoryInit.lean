import Xana.Bootstrap.Mappings

/-!
# `memory_init` of the loader

Three loops enter pages: the memory at its offset, in blocks of 2 MiB, the first 16 MiB at
themselves, and the framebuffer at the offset. The third one is meant to do nothing where the
memory has been mapped already, but `map_page` does not see a block: it puts an empty page
table in its place.
-/

namespace Xana

namespace Bootstrap

open Forest

/-! ### The loops -/

/-- `for (uint64_t addr = …; addr < bound; addr += stride)`, in at most `n` rounds. -/
def forAddr (body : ℕ → State → Option State) (bound stride : ℕ) : ℕ → ℕ → State → Option State
  | 0, _, _ => none
  | n + 1, addr, b =>
      if addr < bound then
        (body addr b).bind fun b => forAddr body bound stride n ((addr + stride) % 2 ^ 64) b
      else some b

/-- `addr + 0xffffff8000000000` -/
def toVirt (addr : ℕ) : ℕ := (addr + virtMemOffset) % 2 ^ 64

/-- A round of a loop over pages: `map_page(…, addr, true, true, pml4_addr);` -/
def pageRound (virtOf : ℕ → ℕ) (pml4 addr : ℕ) (b : State) : Option State :=
  (mapPage b (virtOf addr) addr true true pml4).map fun r => r.2

/-- A round of a loop over blocks: `map_page_2mb(…, addr, true, true, pml4_addr);` -/
def blockRound (virtOf : ℕ → ℕ) (pml4 addr : ℕ) (b : State) : Option State :=
  (mapPage2mb b (virtOf addr) addr true true pml4).map fun r => r.2

/-- `memory_init`, with `multiboot_max_addr`, `multiboot_total_memory`, and the address and the
size of the framebuffer: the root, and the state. -/
def memoryInit (n maxAddr totalMemory fbAddr fbSize : ℕ) (b : State) : Option (ℕ × State) := do
  let b := { b with kheapLoc := maxAddr % 2 ^ 32 }
  let (pml4, b) ← kmallocA b pageDirectorySize 0x1000
  let b := (b.clearDir pml4).setPhysAddr pml4 pml4
  let b ← forAddr (blockRound toVirt pml4) totalMemory 0x200000 n 0 b
  let b ← forAddr (pageRound id pml4) 0x1000000 0x1000 n 0 b
  let b ← forAddr (pageRound toVirt pml4) ((fbAddr + fbSize) % 2 ^ 32) 0x1000 n fbAddr b
  return (pml4, b)

/-- The number of rounds of a loop. -/
def rounds (addr bound stride : ℕ) : ℕ := (bound - addr + (stride - 1)) / stride

section Loops

variable {body : ℕ → State → Option State} {bound stride n addr i : ℕ} {b b' : State}
variable {P : ℕ → State → Prop}

theorem lt_rounds_iff (hpos : 0 < stride) :
    i < rounds addr bound stride ↔ addr + i * stride < bound := by
  rw [rounds, Nat.lt_div_iff_mul_lt hpos]
  omega

/-- **The rule for a loop**, from a round on. -/
theorem forAddr_spec (hpos : 0 < stride) (hbound : bound + stride ≤ 2 ^ 64)
    (hstep : ∀ i b b', addr + i * stride < bound → P i b → body (addr + i * stride) b = some b' →
      P (i + 1) b') (hi : i ≤ rounds addr bound stride) (hP : P i b)
    (h : forAddr body bound stride n (addr + i * stride) b = some b') :
    P (rounds addr bound stride) b' := by
  induction n generalizing i b with
  | zero => simp [forAddr] at h
  | succ n ih =>
    rw [forAddr] at h
    split_ifs at h with hlt
    · obtain ⟨b₁, hb₁, h⟩ := Option.bind_eq_some_iff.mp h
      have hnext : (addr + i * stride + stride) % 2 ^ 64 = addr + (i + 1) * stride := by
        rw [Nat.mod_eq_of_lt (by omega), Nat.add_mul, Nat.one_mul, Nat.add_assoc]
      rw [hnext] at h
      exact ih ((lt_rounds_iff hpos).mpr hlt) (hstep i b b₁ hlt hP hb₁) h
    · have hend : i = rounds addr bound stride :=
        hi.antisymm (Nat.le_of_not_lt fun hc => hlt ((lt_rounds_iff hpos).mp hc))
      rw [← hend, ← Option.some.inj h]
      exact hP

/-- **A loop returns** if its body does. -/
theorem forAddr_total (hpos : 0 < stride) (hbound : bound + stride ≤ 2 ^ 64)
    (hstep : ∀ i b, addr + i * stride < bound → P i b → ∃ b', body (addr + i * stride) b = some b' ∧
      P (i + 1) b') (hn : rounds addr bound stride < n + i) (hi : i ≤ rounds addr bound stride)
    (hP : P i b) : ∃ b', forAddr body bound stride n (addr + i * stride) b = some b' ∧
      P (rounds addr bound stride) b' := by
  induction n generalizing i b with
  | zero => omega
  | succ n ih =>
    rw [forAddr]
    split_ifs with hlt
    · obtain ⟨b₁, hb₁, hP₁⟩ := hstep i b hlt hP
      have hnext : (addr + i * stride + stride) % 2 ^ 64 = addr + (i + 1) * stride := by
        rw [Nat.mod_eq_of_lt (by omega), Nat.add_mul, Nat.one_mul, Nat.add_assoc]
      rw [hb₁, Option.bind_some, hnext]
      exact ih (by omega) ((lt_rounds_iff hpos).mpr hlt) hP₁
    · have hend : i = rounds addr bound stride :=
        hi.antisymm (Nat.le_of_not_lt fun hc => hlt ((lt_rounds_iff hpos).mp hc))
      rw [← hend]
      exact ⟨b, rfl, hP⟩

/-- A loop whose bound is too large does not end: its address wraps. -/
theorem forAddr_eq_none (hstride : stride ∣ 2 ^ 64) (haddr : stride ∣ addr) (hlt : addr < 2 ^ 64)
    (hbound : 2 ^ 64 < bound + stride) : forAddr body bound stride n addr b = none := by
  induction n generalizing addr b with
  | zero => rfl
  | succ n ih =>
    have hle : addr + stride ≤ 2 ^ 64 := by
      obtain ⟨q, hq⟩ := hstride
      obtain ⟨c, rfl⟩ := haddr
      rw [hq] at hlt ⊢
      have hc : c + 1 ≤ q := Nat.lt_of_mul_lt_mul_left hlt
      exact Nat.mul_le_mul_left stride hc
    rw [forAddr, if_pos (by omega), Option.bind_eq_none_iff]
    intro b₁ _
    refine ih ?_ (Nat.mod_lt _ (by decide))
    rw [Nat.dvd_mod_iff hstride]
    exact Nat.dvd_add haddr (Nat.dvd_refl stride)

end Loops

/-! ### What the loops enter -/

namespace Mappings

/-- Neither a page nor a block. -/
def empty : Mappings := ⟨fun _ => none, fun _ => none⟩

variable (w : Mappings) (virtOf : ℕ → ℕ) (addr : ℕ)

/-- `n` rounds of a loop over blocks. -/
def enterBlocks : ℕ → Mappings
  | 0 => w
  | n + 1 => (enterBlocks n).enterLarge (blockOf (virtOf (addr + n * 0x200000)))
      ((addr + n * 0x200000) / 2 ^ 21)

/-- `n` rounds of a loop over pages. -/
def enterPages : ℕ → Mappings
  | 0 => w
  | n + 1 => (enterPages n).enterPage (pageOf (virtOf (addr + n * 0x1000)))
      ((addr + n * 0x1000) / 2 ^ 12)

variable {w virtOf addr} {base frame n k q : ℕ}

@[simp] theorem pages_enterBlocks : (w.enterBlocks virtOf addr n).pages = w.pages := by
  induction n with
  | zero => rfl
  | succ n ih => exact ih

@[simp] theorem large_enterPages : (w.enterPages virtOf addr n).large = w.large := by
  induction n with
  | zero => rfl
  | succ n ih => exact ih

variable (base frame) in
/-- **A loop over consecutive blocks.** -/
theorem large_enterBlocks (hbase : ∀ i < n, blockOf (virtOf (addr + i * 0x200000)) = base + i)
    (hframe : ∀ i < n, (addr + i * 0x200000) / 2 ^ 21 = frame + i) :
    (w.enterBlocks virtOf addr n).large k =
      if base ≤ k ∧ k < base + n then some (frame + (k - base)) else w.large k := by
  induction n with
  | zero =>
    rw [if_neg (by omega)]
    rfl
  | succ n ih =>
    rw [enterBlocks, hbase n (by omega), hframe n (by omega), enterLarge]
    by_cases hk : k = base + n
    · subst hk
      rw [if_pos (by omega), Nat.add_sub_cancel_left]
      exact Function.update_self _ _ _
    · simp only [Function.update_of_ne hk]
      rw [ih (fun i hi => hbase i (by omega)) (fun i hi => hframe i (by omega))]
      split_ifs <;> first | rfl | omega

variable (base frame) in
/-- **A loop over consecutive pages**, which stays away from pages that are there. -/
theorem pages_enterPages (hbase : ∀ i < n, pageOf (virtOf (addr + i * 0x1000)) = base + i)
    (hframe : ∀ i < n, (addr + i * 0x1000) / 2 ^ 12 = frame + i)
    (hnone : ∀ i < n, w.pages (base + i) = none) :
    (w.enterPages virtOf addr n).pages q =
      if base ≤ q ∧ q < base + n then some (frame + (q - base)) else w.pages q := by
  induction n generalizing q with
  | zero =>
    rw [if_neg (by omega)]
    rfl
  | succ n ih =>
    have hpages := fun {q} => ih (q := q) (fun i hi => hbase i (by omega))
      (fun i hi => hframe i (by omega)) (fun i hi => hnone i (by omega))
    rw [enterPages, hbase n (by omega), hframe n (by omega), enterPage]
    by_cases hq : q = base + n
    · subst hq
      rw [if_pos (by omega), Nat.add_sub_cancel_left]
      simp only [Function.update_self]
      rw [hpages, if_neg (by omega), hnone n (by omega), Option.getD_none]
    · simp only [Function.update_of_ne hq]
      rw [hpages]
      split_ifs <;> first | rfl | omega

end Mappings

/-! ### The runs -/

/-- In how many tables of 512 slots `n` consecutive slots are, from slot `o` of a table on. -/
def groups (o n : ℕ) : ℕ := if n = 0 then 0 else (o + n - 1) / 512 + 1

section Run

variable {b b' : State} {root bound addr base n i : ℕ} {w : Mappings} {virtOf : ℕ → ℕ}

theorem groups_succ {o : ℕ} (ho : o < 512) (i : ℕ) :
    groups o (i + 1) = groups o i + if i = 0 ∨ (o + i) % 512 = 0 then 1 else 0 := by
  rw [groups, groups]
  split_ifs <;> omega

theorem groups_le {o m : ℕ} (h : i ≤ m) : groups o i ≤ groups o m := by
  rw [groups, groups]
  split_ifs <;> omega

/-- What round `i` of a loop may need, when each table of 512 slots has the price `cost`. -/
def roundCost (cost o i : ℕ) : ℕ := (if i = 0 ∨ (o + i) % 512 = 0 then 1 else 0) * cost

/-- **A loop returns** if there is room for the tables that its rounds need. -/
theorem forAddr_returns {body : ℕ → State → Option State} {Q : ℕ → State → Prop}
    {stride cost o : ℕ} (hpos : 0 < stride) (hbound : bound + stride ≤ 2 ^ 64) (ho : o < 512)
    (hround : ∀ i b, i < rounds addr bound stride → Q i b →
      b.kheapLoc + roundCost cost o i ≤ kernelLoadAddr →
        ∃ b', body (addr + i * stride) b = some b' ∧ Q (i + 1) b' ∧
          b'.kheapLoc ≤ b.kheapLoc + roundCost cost o i) (hQ : Q 0 b)
    (hroom : b.kheapLoc + groups o (rounds addr bound stride) * cost ≤ kernelLoadAddr)
    (hn : rounds addr bound stride < n) :
    ∃ b', forAddr body bound stride n addr b = some b' ∧ Q (rounds addr bound stride) b' ∧
      b'.kheapLoc ≤ b.kheapLoc + groups o (rounds addr bound stride) * cost := by
  have hstep : ∀ i b₁, addr + i * stride < bound →
      (Q i b₁ ∧ b₁.kheapLoc ≤ b.kheapLoc + groups o i * cost) →
      ∃ b₂, body (addr + i * stride) b₁ = some b₂ ∧ Q (i + 1) b₂ ∧
        b₂.kheapLoc ≤ b.kheapLoc + groups o (i + 1) * cost := by
    rintro i b₁ hlt ⟨hQ₁, hle⟩
    have hi : i < rounds addr bound stride := (lt_rounds_iff hpos).mpr hlt
    have hmono := Nat.mul_le_mul_right cost (groups_le (o := o) (Nat.succ_le_of_lt hi))
    have hsucc : groups o (i + 1) * cost = groups o i * cost + roundCost cost o i := by
      rw [groups_succ ho, Nat.add_mul, roundCost]
    rw [Nat.succ_eq_add_one, hsucc] at hmono
    obtain ⟨b₂, hb₂, hQ₂, hle₂⟩ := hround i b₁ hi hQ₁ (by omega)
    exact ⟨b₂, hb₂, hQ₂, by omega⟩
  have hrun := forAddr_total (P := fun i b₁ => Q i b₁ ∧ b₁.kheapLoc ≤ b.kheapLoc +
    groups o i * cost) (i := 0) hpos hbound hstep hn (Nat.zero_le _) ⟨hQ, Nat.le_add_right _ _⟩
  rwa [Nat.zero_mul, Nat.add_zero] at hrun

/-- **The empty tables.** -/
theorem shows_empty (hroot : root % 0x1000 = 0) (hkheap : b.kheapLoc = root + pageDirectorySize)
    (hlt : b.kheapLoc < kernelLoadAddr) (hzero : ∀ i, (b.dirs root).virt i = 0)
    (hentries : ∀ i, (b.dirs root).entries i = 0) : Shows b root Mappings.empty := by
  have hkid : ∀ i, b.kid root i = none := fun i => State.kid_eq_none.mpr (hzero i)
  have hwalk : ∀ {p : List ℕ} {t : ℕ}, walk b.kid root p = some t → p = [] ∧ t = root := by
    intro p t hp
    cases p with
    | nil => exact ⟨rfl, (Option.some.inj hp).symm⟩
    | cons i p =>
      rw [walk_cons, hkid] at hp
      exact absurd hp (by simp)
  have hnone : ∀ v, pageTable b root v = none := fun v => by
    rw [pageTable, slots, walk_cons, hkid, Option.bind_none]
  refine ⟨⟨hlt, ⟨?_, ?_⟩, ?_, ?_, ?_, ?_⟩, ?_, ?_, ?_⟩
  · rintro r p i ⟨rfl, hp⟩
    rw [List.length_append, List.length_singleton] at hp
    exact ⟨rfl, by omega⟩
  · rintro r r' t p p' ⟨rfl, -⟩ ⟨rfl, -⟩ hp hp'
    exact ⟨rfl, (hwalk hp).1.trans (hwalk hp').1.symm⟩
  · intro p t _ hp
    rw [(hwalk hp).2]
    exact hroot
  · intro p t _ hp
    obtain ⟨rfl, rfl⟩ := hwalk hp
    rw [hkheap]
    exact le_rfl
  · intro p d i t _ hp hi
    rw [(hwalk hp).2, hkid] at hi
    exact absurd hi (by simp)
  · intro p d i _ hp _
    rw [(hwalk hp).2]
    exact hentries i
  · intro v
    refine iff_of_false (not_not.mpr (hnone v)) ?_
    rintro ⟨q, -, hpage⟩
    exact hpage rfl
  · intro v t ht
    rw [hnone] at ht
    exact absurd ht (by simp)
  · intro v _
    have hlarge : Mappings.empty.large (blockOf v) = none := rfl
    rw [blockEntry, walk_cons, hkid, Option.bind_none, Option.elim_none, hlarge, entryOf_none]

/-- **A loop over blocks** enters them, where there is no page. -/
theorem Shows.mapBlocks (h : Shows b root w) (hnone : ∀ q, w.pages q = none)
    (hbound : bound + 0x200000 ≤ 2 ^ 64)
    (hrun : forAddr (blockRound virtOf root) bound 0x200000 n addr b = some b') :
    Shows b' root (w.enterBlocks virtOf addr (rounds addr bound 0x200000)) := by
  refine forAddr_spec (P := fun i b => Shows b root (w.enterBlocks virtOf addr i)) (i := 0)
    (by decide) hbound ?_ (Nat.zero_le _) h (by simpa using hrun)
  intro i b₁ b₂ hlt hshows hbody
  obtain ⟨⟨r, b₃⟩, hmap, rfl⟩ := Option.map_eq_some_iff.mp hbody
  refine hshows.mapPage2mb (by omega) ?_ hmap
  rintro ⟨q, -, hpage⟩
  rw [Mappings.pages_enterBlocks] at hpage
  exact hpage (hnone q)

/-- **A loop over pages** enters them. -/
theorem Shows.mapPages (h : Shows b root w) (hbound : bound + 0x1000 ≤ 2 ^ 64)
    (hrun : forAddr (pageRound virtOf root) bound 0x1000 n addr b = some b') :
    Shows b' root (w.enterPages virtOf addr (rounds addr bound 0x1000)) := by
  refine forAddr_spec (P := fun i b => Shows b root (w.enterPages virtOf addr i)) (i := 0)
    (by decide) hbound ?_ (Nat.zero_le _) h (by simpa using hrun)
  intro i b₁ b₂ hlt hshows hbody
  obtain ⟨⟨r, b₃⟩, hmap, rfl⟩ := Option.map_eq_some_iff.mp hbody
  exact hshows.mapPage (by omega) hmap

/-- **A round over pages returns** if there is room for the tables that it needs: there is a
page table already if the round before was for the same block. -/
theorem Shows.exists_pageRound (h : Shows b root (w.enterPages virtOf addr i))
    (hbase : ∀ j ≤ i, pageOf (virtOf (addr + j * 0x1000)) = base + j)
    (hphys : addr + i * 0x1000 < 2 ^ 64)
    (hroom : b.kheapLoc + roundCost (3 * tableRoom) (base % 512) i ≤ kernelLoadAddr) :
    ∃ b', pageRound virtOf root (addr + i * 0x1000) b = some b' ∧
      Shows b' root (w.enterPages virtOf addr (i + 1)) ∧
      b'.kheapLoc ≤ b.kheapLoc + roundCost (3 * tableRoom) (base % 512) i := by
  rw [roundCost] at hroom ⊢
  by_cases hnew : i = 0 ∨ (base % 512 + i) % 512 = 0
  · rw [if_pos hnew, Nat.one_mul] at hroom ⊢
    obtain ⟨r, b', hmap, hle⟩ := mapPage_returns (virtOf (addr + i * 0x1000))
      (addr + i * 0x1000) root hroom
    exact ⟨b', by rw [pageRound, hmap]; rfl, h.mapPage hphys hmap, hle⟩
  · rw [if_neg hnew, Nat.zero_mul, Nat.add_zero]
    obtain ⟨k, rfl⟩ : ∃ k, i = k + 1 := ⟨i - 1, by omega⟩
    have hblock : blockOf (virtOf (addr + k * 0x1000)) =
        blockOf (virtOf (addr + (k + 1) * 0x1000)) := by
      rw [blockOf_eq, blockOf_eq, hbase k (Nat.le_succ k), hbase (k + 1) le_rfl]
      omega
    have hsplit : (w.enterPages virtOf addr (k + 1)).Split
        (blockOf (virtOf (addr + (k + 1) * 0x1000))) := by
      rw [Mappings.enterPages, Mappings.split_enterPage, ← blockOf_eq, hblock]
      exact Or.inl rfl
    obtain ⟨t, ht⟩ := Option.ne_none_iff_exists'.mp ((h.split _).mpr hsplit)
    obtain ⟨r, b', hmap, heq⟩ := mapPage_of_table (addr + (k + 1) * 0x1000) ht
    exact ⟨b', by rw [pageRound, hmap]; rfl, h.mapPage hphys hmap, heq.le⟩

/-- **A loop over consecutive pages returns** if there is room for the tables of all its
blocks. -/
theorem Shows.mapPages_returns (h : Shows b root w) (hbound : bound + 0x1000 ≤ 2 ^ 64)
    (hbase : ∀ i < rounds addr bound 0x1000, pageOf (virtOf (addr + i * 0x1000)) = base + i)
    (hroom : b.kheapLoc + groups (base % 512) (rounds addr bound 0x1000) * (3 * tableRoom) ≤
      kernelLoadAddr) (hn : rounds addr bound 0x1000 < n) :
    ∃ b', forAddr (pageRound virtOf root) bound 0x1000 n addr b = some b' ∧
      Shows b' root (w.enterPages virtOf addr (rounds addr bound 0x1000)) ∧ b'.kheapLoc ≤
        b.kheapLoc + groups (base % 512) (rounds addr bound 0x1000) * (3 * tableRoom) := by
  refine forAddr_returns (Q := fun i b₁ => Shows b₁ root (w.enterPages virtOf addr i)) (by decide)
    hbound (Nat.mod_lt _ (by decide)) ?_ h hroom hn
  intro i b₁ hi hshows hroom₁
  have hlt : addr + i * 0x1000 < bound := (lt_rounds_iff (by decide)).mp hi
  exact hshows.exists_pageRound (fun j hj => hbase j (hj.trans_lt hi)) (by omega) hroom₁

/-- Blocks with a page directory of their own share it with 511 others. -/
theorem directories_eq {v v' : ℕ} (h : blockOf v / 512 = blockOf v' / 512) :
    [pml4Index v, pdptIndex v] = [pml4Index v', pdptIndex v'] := by
  simp only [blockOf] at h
  simp only [List.cons.injEq, and_true, pml4Index_eq, pdptIndex_eq]
  constructor
  · omega
  · omega

/-- The page directory of a block that has been entered. -/
theorem Shows.exists_directory {v f : ℕ} (h : Shows b root w) (hnone : ∀ q, w.pages q = none)
    (hlarge : w.large (blockOf v) = some f) :
    ∃ d, walk b.kid root [pml4Index v, pdptIndex v] = some d := by
  have htable : pageTable b root v = none := by
    by_contra hne
    obtain ⟨q, -, hpage⟩ := (h.split v).mp hne
    exact hpage (hnone q)
  have hentry := h.large htable
  rw [hlarge, blockEntry] at hentry
  cases hd : walk b.kid root [pml4Index v, pdptIndex v] with
  | some d => exact ⟨d, rfl⟩
  | none =>
    rw [hd] at hentry
    have hzero : entryOf 21 0x83 (some f) = 0 := hentry.symm
    rw [entryOf_eq_zero (by decide)] at hzero
    exact absurd hzero (by simp)

/-- **A round over blocks returns** if there is room for the tables that it needs. -/
theorem Shows.exists_blockRound (h : Shows b root (w.enterBlocks virtOf addr i))
    (hnone : ∀ q, w.pages q = none)
    (hbase : ∀ j ≤ i, blockOf (virtOf (addr + j * 0x200000)) = base + j)
    (hphys : addr + i * 0x200000 < 2 ^ 64)
    (hroom : b.kheapLoc + roundCost (2 * tableRoom) (base % 512) i ≤ kernelLoadAddr) :
    ∃ b', blockRound virtOf root (addr + i * 0x200000) b = some b' ∧
      Shows b' root (w.enterBlocks virtOf addr (i + 1)) ∧
      b'.kheapLoc ≤ b.kheapLoc + roundCost (2 * tableRoom) (base % 512) i := by
  rw [roundCost] at hroom ⊢
  have hnone' : ∀ q, (w.enterBlocks virtOf addr i).pages q = none := fun q => by
    rw [Mappings.pages_enterBlocks, hnone]
  have hsplit : ¬(w.enterBlocks virtOf addr i).Split
      (blockOf (virtOf (addr + i * 0x200000))) := fun ⟨q, _, hpage⟩ => hpage (hnone' q)
  by_cases hnew : i = 0 ∨ (base % 512 + i) % 512 = 0
  · rw [if_pos hnew, Nat.one_mul] at hroom ⊢
    obtain ⟨r, b', hmap, hle⟩ := mapPage2mb_returns (virtOf (addr + i * 0x200000))
      (addr + i * 0x200000) root hroom
    exact ⟨b', by rw [blockRound, hmap]; rfl, h.mapPage2mb hphys hsplit hmap, hle⟩
  · -- the block before is in the same page directory
    rw [if_neg hnew, Nat.zero_mul, Nat.add_zero]
    obtain ⟨k, rfl⟩ : ∃ k, i = k + 1 := ⟨i - 1, by omega⟩
    have hprev : (w.enterBlocks virtOf addr (k + 1)).large
        (blockOf (virtOf (addr + k * 0x200000))) = some ((addr + k * 0x200000) / 2 ^ 21) := by
      rw [Mappings.enterBlocks, Mappings.enterLarge]
      exact Function.update_self _ _ _
    obtain ⟨d, hd⟩ := h.exists_directory hnone' hprev
    have hgroup : blockOf (virtOf (addr + k * 0x200000)) / 512 =
        blockOf (virtOf (addr + (k + 1) * 0x200000)) / 512 := by
      rw [hbase k (Nat.le_succ k), hbase (k + 1) le_rfl]
      omega
    rw [directories_eq hgroup] at hd
    obtain ⟨r, b', hmap, heq⟩ := mapPage2mb_of_walk (addr + (k + 1) * 0x200000) hd
    exact ⟨b', by rw [blockRound, hmap]; rfl, h.mapPage2mb hphys hsplit hmap, heq.le⟩

/-- **A loop over consecutive blocks returns** if there is room for the tables of all its page
directories. -/
theorem Shows.mapBlocks_returns (h : Shows b root w) (hnone : ∀ q, w.pages q = none)
    (hbound : bound + 0x200000 ≤ 2 ^ 64)
    (hbase : ∀ i < rounds addr bound 0x200000, blockOf (virtOf (addr + i * 0x200000)) = base + i)
    (hroom : b.kheapLoc + groups (base % 512) (rounds addr bound 0x200000) * (2 * tableRoom) ≤
      kernelLoadAddr) (hn : rounds addr bound 0x200000 < n) :
    ∃ b', forAddr (blockRound virtOf root) bound 0x200000 n addr b = some b' ∧
      Shows b' root (w.enterBlocks virtOf addr (rounds addr bound 0x200000)) ∧ b'.kheapLoc ≤
        b.kheapLoc + groups (base % 512) (rounds addr bound 0x200000) * (2 * tableRoom) := by
  refine forAddr_returns (Q := fun i b₁ => Shows b₁ root (w.enterBlocks virtOf addr i)) (by decide)
    hbound (Nat.mod_lt _ (by decide)) ?_ h hroom hn
  intro i b₁ hi hshows hroom₁
  have hlt : addr + i * 0x200000 < bound := (lt_rounds_iff (by decide)).mp hi
  exact hshows.exists_blockRound hnone (fun j hj => hbase j (hj.trans_lt hi)) (by omega) hroom₁

end Run

end Bootstrap

end Xana
