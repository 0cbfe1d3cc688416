import Mathlib.Data.List.Basic
import Mathlib.Logic.Function.Basic

/-!
# Singly linked chains

A linked list in a store of nodes is a successor function `next : α → Option α`
and a start pointer. `Seg next p l q` says that following `next` from the pointer
`p` visits the nodes of `l` in order and then arrives at the pointer `q`; a
complete chain is a segment that arrives at `none`.

Everything an edit of such a list needs is here: segments concatenate
(`Chain.seg_append`), they do not see an update of `next` outside their nodes
(`Chain.seg_update_of_notMem`), a chain is determined by its start
(`Chain.Seg.unique`) and therefore never visits a node twice
(`Chain.Seg.nodup`), and redirecting one pointer – the successor of a node, or
the start – splices the nodes before it to any other chain
(`Chain.Seg.splice`).

The loops over such a list are all one loop, `Chain.walk`: keep the node before,
and stop at the first node that is wanted. On a chain it finds the first place
where the list splits that way (`Chain.walk_eq`, `Chain.exists_passed`).
-/

namespace Xana

namespace Chain

variable {α : Type*}

/-- Following `next` from `p` visits the nodes `l` and arrives at `q`. -/
def Seg (next : α → Option α) : Option α → List α → Option α → Prop
  | p, [], q => p = q
  | p, a :: l, q => p = some a ∧ Seg next (next a) l q

variable {next next' : α → Option α} {p q : Option α} {a : α} {l l' : List α}

@[simp] theorem seg_nil : Seg next p [] q ↔ p = q := Iff.rfl

@[simp] theorem seg_cons : Seg next p (a :: l) q ↔ p = some a ∧ Seg next (next a) l q := Iff.rfl

/-- **Segments concatenate.** -/
theorem seg_append : ∀ {p : Option α} {l l' : List α},
    Seg next p (l ++ l') q ↔ ∃ r, Seg next p l r ∧ Seg next r l' q
  | p, [], l' => by simp
  | p, a :: l, l' => by
    simp only [List.cons_append, seg_cons, seg_append (l := l), and_assoc]
    constructor
    · rintro ⟨hp, r, h⟩
      exact ⟨r, hp, h⟩
    · rintro ⟨r, hp, h⟩
      exact ⟨hp, r, h⟩

/-- A segment only depends on the successors of its own nodes. -/
theorem seg_congr : ∀ {p : Option α} {l : List α}, (∀ a ∈ l, next a = next' a) →
    (Seg next p l q ↔ Seg next' p l q)
  | p, [], _ => Iff.rfl
  | p, a :: l, h => by
    rw [seg_cons, seg_cons, h a (by simp)]
    exact and_congr_right fun _ => seg_congr fun b hb => h b (List.mem_cons_of_mem a hb)

/-- Redirecting a node outside the segment is invisible to it. -/
theorem seg_update_of_notMem [DecidableEq α] {b : α} {r : Option α} (hb : b ∉ l) :
    Seg (Function.update next b r) p l q ↔ Seg next p l q := by
  refine seg_congr fun a ha => ?_
  rw [Function.update_of_ne]
  rintro rfl
  exact hb ha

/-- A chain starts at its first node. -/
theorem Seg.head_eq : ∀ {l : List α}, Seg next p l none → p = l.head?
  | [], h => h
  | _ :: _, h => h.1

/-- **The chain is determined by its start.** -/
theorem Seg.unique : ∀ {p : Option α} {l l' : List α}, Seg next p l none → Seg next p l' none →
    l = l'
  | p, [], [], _, _ => rfl
  | p, [], b :: l', h, h' => by
    obtain rfl : p = none := h
    exact absurd h'.1 (by simp)
  | p, a :: l, [], h, h' => by
    obtain rfl : p = none := h'
    exact absurd h.1 (by simp)
  | p, a :: l, b :: l', h, h' => by
    obtain rfl : a = b := Option.some.inj (h.1.symm.trans h'.1)
    rw [Seg.unique h.2 h'.2]

/-- From any node of a chain, the rest of the chain is a chain. -/
theorem Seg.suffix {l₁ l₂ : List α} (h : Seg next p (l₁ ++ a :: l₂) q) :
    Seg next (next a) l₂ q := by
  obtain ⟨r, -, hr⟩ := seg_append.mp h
  exact hr.2

/-- **A chain visits no node twice**: it would otherwise come back forever. -/
theorem Seg.nodup : ∀ {p : Option α} {l : List α}, Seg next p l none → l.Nodup
  | p, [], _ => List.nodup_nil
  | p, a :: l, h => by
    refine List.nodup_cons.mpr ⟨fun ha => ?_, h.2.nodup⟩
    obtain ⟨l₁, l₂, rfl⟩ := List.append_of_mem ha
    have hlen := congrArg List.length (Seg.unique h.2 h.2.suffix)
    simp only [List.length_append, List.length_cons] at hlen
    omega

/-- **Splicing**: keep the nodes `l₁`, and let the last of them – or the start, if
there is none – point to another chain. -/
theorem Seg.splice {l₁ l₂ m : List α} {p' : Option α} (h : Seg next p (l₁ ++ l₂) none)
    (hkeep : ∀ a ∈ l₁, l₁.getLast? ≠ some a → next' a = next a)
    (hlast : ∀ a, l₁.getLast? = some a → next' a = q)
    (hstart : p' = if l₁ = [] then q else p) (hm : Seg next' q m none) :
    Seg next' p' (l₁ ++ m) none := by
  rcases l₁.eq_nil_or_concat' with rfl | ⟨l, a, rfl⟩
  · rw [hstart, if_pos rfl]
    exact hm
  · have ha : a ∉ l := fun hc =>
      (List.nodup_append.mp (List.nodup_append.mp h.nodup).1).2.2 a hc a (by simp) rfl
    rw [List.append_assoc] at h
    obtain ⟨r, hl, hr, -⟩ := seg_append.mp h
    rw [List.append_assoc, hstart, if_neg (by simp)]
    refine seg_append.mpr ⟨r, (seg_congr fun b hb => ?_).mp hl, hr, ?_⟩
    · refine (hkeep b (List.mem_append_left [a] hb) ?_).symm
      rw [List.getLast?_concat]
      rintro hc
      exact ha (Option.some.inj hc ▸ hb)
    · rw [hlast a List.getLast?_concat]
      exact hm

/-- **Appending**: redirecting the last node of a chain to a node without a
successor puts that node at its end. -/
theorem Seg.append_node [DecidableEq α] {b : α} (h : Seg next p (l ++ [a]) none)
    (hb : next b = none) (hab : b ≠ a) :
    Seg (Function.update next a (some b)) p (l ++ [a] ++ [b]) none := by
  rw [← List.append_nil (l ++ [a])] at h
  refine h.splice (fun c _ hc => ?_) (fun c hc => ?_) (by simp) ⟨rfl, ?_⟩
  · rw [List.getLast?_concat] at hc
    exact Function.update_of_ne (fun he => hc (by rw [he])) _ _
  · rw [List.getLast?_concat] at hc
    rw [Option.some.inj hc, Function.update_self]
  · rw [Function.update_of_ne hab]
    exact hb

/-! ### Walking -/

section Walk

variable {stop : Option α → α → Bool} {prev : Option α} {n : ℕ}

/-- Walk along a list, remembering the node before, to the first node that `stop`
wants or to the end: the node before, and that node. The bound is on the number
of nodes passed. -/
def walk (next : α → Option α) (stop : Option α → α → Bool) :
    ℕ → Option α → Option α → Option (Option α × Option α)
  | 0, _, _ => none
  | _ + 1, prev, none => some (prev, none)
  | n + 1, prev, some a =>
      if stop prev a then some (prev, some a) else walk next stop n (some a) (next a)

/-- No node of `l` is wanted, coming from `prev`. -/
def Passed (stop : Option α → α → Bool) : Option α → List α → Prop
  | _, [] => True
  | prev, a :: l => stop prev a = false ∧ Passed stop (some a) l

theorem getLast?_cons_or (a : α) (l : List α) (prev : Option α) :
    (a :: l).getLast?.or prev = l.getLast?.or (some a) := by
  cases hl : l.getLast? with
  | none => simp [List.getLast?_cons, hl]
  | some b => simp [List.getLast?_cons, hl]

/-- Every list splits before its first wanted node. -/
theorem exists_passed (stop : Option α → α → Bool) (prev : Option α) (l : List α) :
    ∃ l₁ l₂, l = l₁ ++ l₂ ∧ Passed stop prev l₁ ∧
      ∀ a ∈ l₂.head?, stop (l₁.getLast?.or prev) a = true := by
  induction l generalizing prev with
  | nil => exact ⟨[], [], rfl, trivial, by simp⟩
  | cons a l ih =>
    by_cases ha : stop prev a = true
    · exact ⟨[], a :: l, rfl, trivial, by simpa using ha⟩
    · obtain ⟨l₁, l₂, rfl, hpass, hstop⟩ := ih (some a)
      refine ⟨a :: l₁, l₂, rfl, ⟨by simpa using ha, hpass⟩, ?_⟩
      rw [getLast?_cons_or]
      exact hstop

/-- **What the walk finds**: the place where the list splits before its first
wanted node. -/
theorem walk_eq {l₁ l₂ : List α} (h : Seg next p (l₁ ++ l₂) none) (hn : l₁.length < n)
    (hpass : Passed stop prev l₁) (hstop : ∀ a ∈ l₂.head?, stop (l₁.getLast?.or prev) a = true) :
    walk next stop n prev p = some (l₁.getLast?.or prev, l₂.head?) := by
  induction l₁ generalizing n prev p with
  | nil =>
    obtain ⟨m, rfl⟩ : ∃ m, n = m + 1 := ⟨n - 1, by simp at hn; omega⟩
    cases l₂ with
    | nil =>
      obtain rfl : p = none := h
      rfl
    | cons a l =>
      obtain rfl : p = some a := h.1
      have ha : stop prev a = true := hstop a rfl
      rw [walk, if_pos ha]
      rfl
  | cons a l ih =>
    obtain ⟨m, rfl⟩ : ∃ m, n = m + 1 := ⟨n - 1, by simp at hn; omega⟩
    obtain rfl : p = some a := h.1
    rw [walk, if_neg (by simp [hpass.1])]
    rw [getLast?_cons_or] at hstop ⊢
    exact ih h.2 (by simpa using hn) hpass.2 hstop

/-- Where every node is judged by itself, no passed node is wanted. -/
theorem Passed.of_forall {l : List α} {P : α → Bool} (h : ∀ a ∈ l, P a = false) :
    Passed (fun _ => P) prev l := by
  induction l generalizing prev with
  | nil => trivial
  | cons a l ih => exact ⟨h a (by simp), ih fun b hb => h b (List.mem_cons_of_mem a hb)⟩

theorem Passed.forall {l : List α} {P : α → Bool} (h : Passed (fun _ => P) prev l) :
    ∀ a ∈ l, P a = false := by
  induction l generalizing prev with
  | nil => simp
  | cons a l ih =>
    intro b hb
    rcases List.mem_cons.mp hb with rfl | hb
    · exact h.1
    · exact ih h.2 b hb

/-- The nodes from a pointer on, at most `n` of them. -/
def collect (next : α → Option α) : ℕ → Option α → List α
  | 0, _ => []
  | _ + 1, none => []
  | n + 1, some a => a :: collect next n (next a)

/-- Collecting a chain lists it. -/
theorem Seg.collect_eq (h : Seg next p l none) (hn : l.length ≤ n) : collect next n p = l := by
  induction l generalizing n p with
  | nil =>
    obtain rfl : p = none := h
    cases n <;> rfl
  | cons a l ih =>
    obtain ⟨m, rfl⟩ : ∃ m, n = m + 1 := ⟨n - 1, by simp at hn; omega⟩
    obtain rfl : p = some a := h.1
    rw [collect, ih h.2 (by simpa using hn)]

end Walk

end Chain

end Xana
