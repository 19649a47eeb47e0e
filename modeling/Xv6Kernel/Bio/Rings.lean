import Mathlib.Data.List.Nodup
import Xv6Kernel.Bio.Cache

/-!
# The hash chains and the LRU ring as lists

`bcache_enhanced.c` keeps its buffers on circular doubly-linked lists through sentinel heads. This
module reads such a list as the list of nodes after its head.

* `Links nx pv a l z`: `nx` goes from `a` through `l` to `z`, and `pv` goes back along the same
  steps. `Ring nx pv s l`: the nodes `s :: l` are distinct and linked from `s` round to `s`.
* `Ring.unlink`: `b->prev->next = b->next; b->next->prev = b->prev` erases `b` from the list.
  `Ring.insert`: the four assignments of an insertion after the head put `b` first.
* `Links.lookup`, `Links.victim`: the loops of `get_block` visit the list in order, so on a ring they
  end within its length.
-/

namespace Xv6.Bio

open Function (update)

/-! ## Linked lists of nodes -/

section Links

variable {nx pv nx' pv' : BPtr → BPtr} {a b c z s : BPtr} {l l₁ l₂ : List BPtr}

/-- `nx` goes from `a` through the nodes of `l` to `z`, and `pv` goes back along each step. -/
def Links (nx pv : BPtr → BPtr) : BPtr → List BPtr → BPtr → Prop
  | a, [], z => nx a = z ∧ pv z = a
  | a, b :: l, z => nx a = b ∧ pv b = a ∧ Links nx pv b l z

@[simp] theorem links_nil : Links nx pv a [] z ↔ nx a = z ∧ pv z = a := Iff.rfl

@[simp] theorem links_cons : Links nx pv a (b :: l) z ↔ nx a = b ∧ pv b = a ∧ Links nx pv b l z :=
  Iff.rfl

theorem Links.append : Links nx pv a (l₁ ++ b :: l₂) z ↔ Links nx pv a l₁ b ∧ Links nx pv b l₂ z := by
  induction l₁ generalizing a with
  | nil => simp [and_assoc]
  | cons c l₁ ih => simp only [List.cons_append, links_cons, ih, and_assoc]

theorem Links.snoc : Links nx pv a (l ++ [b]) z ↔ Links nx pv a l b ∧ nx b = z ∧ pv z = b := by
  rw [Links.append, links_nil]

/-- Read backwards, a list is linked by `pv` and `nx`. -/
theorem Links.reverse : Links nx pv a l z ↔ Links pv nx z l.reverse a := by
  induction l generalizing a with
  | nil => simp [and_comm]
  | cons b l ih => simp only [links_cons, List.reverse_cons, Links.snoc, ih]; tauto

/-- The links of a list are those of its nodes: `nx` at the nodes it leaves, `pv` at those it
enters. -/
theorem Links.congr (h : Links nx pv a l z) (hn : ∀ x ∈ a :: l, nx' x = nx x)
    (hp : ∀ y ∈ l ++ [z], pv' y = pv y) : Links nx' pv' a l z := by
  induction l generalizing a with
  | nil => simp_all
  | cons b l ih =>
    refine ⟨(hn a (by simp)).trans h.1, (hp b (by simp)).trans h.2.1, ih h.2.2 ?_ ?_⟩
    · exact fun x hx => hn x (List.mem_cons_of_mem _ hx)
    · exact fun y hy => hp y (List.mem_cons_of_mem _ hy)

/-- The last step of a list enters `z` from a node of `a :: l`. -/
theorem Links.pv_mem (h : Links nx pv a l z) : pv z ∈ a :: l := by
  induction l generalizing a with
  | nil => simp [h.2]
  | cons b l ih => exact List.mem_cons_of_mem _ (ih h.2.2)

/-- The first step of a list leaves `a` for a node of `l ++ [z]`. -/
theorem Links.nx_mem (h : Links nx pv a l z) : nx a ∈ l ++ [z] := by
  cases l with
  | nil => simp [h.1]
  | cons b l => simp [h.1]

/-- Setting `nx (pv b) := nx b` and `pv (nx b) := pv b` takes `b` out of a list whose nodes,
`b` and `z` included, are distinct but for `z = a`. -/
theorem Links.cut (h₁ : Links nx pv a l₁ b) (h₂ : Links nx pv b l₂ z)
    (hnd : (a :: l₁ ++ b :: l₂).Nodup) (hz : z ∉ l₁ ++ b :: l₂) :
    Links (update nx (pv b) (nx b)) (update pv (nx b) (pv b)) a (l₁ ++ l₂) z := by
  have hq := h₂.nx_mem
  induction l₁ generalizing a with
  | nil =>
    obtain ⟨-, hpb⟩ := h₁
    subst hpb
    simp only [List.nil_append, List.cons_append, List.nodup_cons, List.mem_cons, not_or] at hnd hz
    cases l₂ with
    | nil => simp [h₂.1]
    | cons c l₂ =>
      obtain ⟨hbc, hcb, h₂⟩ := h₂
      subst hbc
      simp only [List.mem_cons, not_or] at hnd hz
      refine ⟨by simp, by simp, h₂.congr (fun x hx => ?_) fun y hy => ?_⟩
      · exact Function.update_noteq (by rintro rfl; simp_all) _ _
      · exact Function.update_noteq (by rintro rfl; simp_all [List.nodup_cons]) _ _
  | cons c l₁ ih =>
    obtain ⟨hac, hca, h₁⟩ := h₁
    have hpv := h₁.pv_mem
    simp only [List.cons_append, List.nodup_cons, List.mem_cons, List.mem_append, not_or] at hnd hz
    have hnd' : (c :: l₁ ++ b :: l₂).Nodup := by simpa using hnd.2
    refine ⟨?_, ?_, ih h₁ hnd' (by simpa [not_or] using hz.2)⟩
    · rw [Function.update_noteq (by rintro e; rw [← e] at hpv; simp_all), hac]
    · rw [Function.update_noteq (by rintro e; rw [← e] at hq; simp_all), hca]

end Links

/-! ## Rings -/

/-- A circular list through the head `s`: the nodes `s :: l` are distinct and linked round. -/
structure Ring (nx pv : BPtr → BPtr) (s : BPtr) (l : List BPtr) : Prop where
  nodup : (s :: l).Nodup
  links : Links nx pv s l s

section Rings

variable {nx pv nx' pv' : BPtr → BPtr} {s b : BPtr} {l : List BPtr}

theorem Ring.congr (h : Ring nx pv s l) (hn : ∀ x ∈ s :: l, nx' x = nx x)
    (hp : ∀ y ∈ s :: l, pv' y = pv y) : Ring nx' pv' s l :=
  ⟨h.nodup, h.links.congr hn fun y hy => hp y (by
    rw [List.mem_append, List.mem_singleton] at hy
    rcases hy with hy | rfl
    · exact List.mem_cons_of_mem _ hy
    · exact List.mem_cons_self _ _)⟩

/-- The neighbours of a node of a ring are on the ring. -/
theorem Ring.nx_mem (h : Ring nx pv s l) (hb : b ∈ s :: l) : nx b ∈ s :: l := by
  have hsub : ∀ {l₂ : List BPtr}, l₂ ⊆ l → ∀ x ∈ l₂ ++ [s], x ∈ s :: l := fun hl x hx => by
    rcases List.mem_append.1 hx with hx | hx
    · exact List.mem_cons_of_mem _ (hl hx)
    · rw [List.mem_singleton.1 hx]; exact List.mem_cons_self _ _
  rcases List.mem_cons.1 hb with rfl | hb
  · exact hsub (List.Subset.refl _) _ h.links.nx_mem
  · obtain ⟨l₁, l₂, rfl⟩ := List.append_of_mem hb
    exact hsub (fun x hx => by simp [hx]) _ (Links.append.1 h.links).2.nx_mem

theorem Ring.pv_mem (h : Ring nx pv s l) (hb : b ∈ s :: l) : pv b ∈ s :: l := by
  have hr : Ring pv nx s l.reverse := ⟨by simpa [List.nodup_reverse] using h.nodup, Links.reverse.1 h.links⟩
  simpa using hr.nx_mem (by simpa using hb)

/-- `b->prev->next = b->next; b->next->prev = b->prev` erases `b` from a ring. -/
theorem Ring.unlink (h : Ring nx pv s l) (hb : b ∈ l) :
    Ring (update nx (pv b) (nx b)) (update pv (nx b) (pv b)) s (l.erase b) := by
  obtain ⟨l₁, l₂, rfl⟩ := List.append_of_mem hb
  have hnd := h.nodup
  have hb₁ : b ∉ l₁ := fun hb₁ =>
    List.disjoint_of_nodup_append (List.nodup_cons.1 hnd).2 hb₁ (List.mem_cons_self b l₂)
  rw [List.erase_append_right _ hb₁, List.erase_cons_head]
  obtain ⟨h₁, h₂⟩ := Links.append.1 h.links
  refine ⟨?_, h₁.cut h₂ (by simpa using hnd) (List.nodup_cons.1 hnd).1⟩
  exact (List.Sublist.append_left (List.sublist_cons_self b l₂) l₁).cons_cons s |>.nodup hnd

/-- The insertion after the head: `b->next = s->next; b->prev = s; s->next->prev = b;
s->next = b`. -/
theorem Ring.insert (h : Ring nx pv s l) (hb : b ∉ s :: l) :
    Ring (update (update nx b (nx s)) s b) (update (update pv b s) (nx s) b) s (b :: l) := by
  have hnd := h.nodup
  simp only [List.mem_cons, not_or] at hb
  simp only [List.nodup_cons] at hnd
  refine ⟨List.nodup_cons.2 ⟨by simp [Ne.symm hb.1, hnd.1], List.nodup_cons.2 ⟨hb.2, hnd.2⟩⟩, ?_⟩
  have hl := h.links
  cases l with
  | nil =>
    obtain ⟨hss, -⟩ := hl
    simp [hss, hb.1, Ne.symm hb.1]
  | cons c l =>
    obtain ⟨hsc, hcs, hl⟩ := hl
    simp only [List.mem_cons, not_or] at hb hnd
    have hcb : c ≠ b := Ne.symm hb.2.1
    refine ⟨by simp, by simp [hsc, hcb, Ne.symm hcb], by simp [hsc, hb.1, hcb], ?_,
      hl.congr (fun x hx => ?_) fun y hy => ?_⟩
    · rw [hsc, Function.update_same]
    · have : x ≠ s := by rintro rfl; simp_all
      have : x ≠ b := by rintro rfl; simp_all
      simp [*]
    · have : y ≠ c := by rintro rfl; simp_all [List.nodup_cons]
      have : y ≠ b := by rintro rfl; simp_all
      simp [hsc, *]

end Rings

/-! ## The cache's links as functions -/

/-- The field `g` of every node. -/
def Cache.view {α : Type} (c : Cache) (g : Head → α) (b : BPtr) : α := g (c.head b)

section Views

variable {α : Type} {c : Cache} {x : BPtr} {f : Head → Head} {g : Head → α}

theorem Cache.view_modHead : (c.modHead x f).view g = update (c.view g) x (g (f (c.head x))) := by
  funext y
  by_cases hy : y = x
  · subst hy; simp [Cache.view]
  · simp [Cache.view, hy]

/-- A write that keeps field `g` keeps its view. -/
theorem Cache.view_modHead_of (hf : ∀ y, g (f y) = g y) : (c.modHead x f).view g = c.view g := by
  rw [Cache.view_modHead, hf]; exact Function.update_eq_self x _

@[simp] theorem Cache.view_setPc {t : Nat} {p : Pc} : (c.setPc t p).view g = c.view g := rfl

@[simp] theorem Cache.view_setOwner {o : Option Nat} : (c.setOwner x o).view g = c.view g := rfl

end Views

/-! ## The loops of `get_block` -/

section Walks

variable {c : Cache} {pv : BPtr → BPtr} {a : BPtr} {l : List BPtr} {n : Nat}

/-- The hash loop walks a chain in order: with more rounds than nodes it returns the first buffer
keyed `(dev, block)`, or the chain's head. -/
theorem Links.lookup {h dev block : Nat} (hl : Links (c.view Head.hash_next) pv a l (.hash h))
    (hs : .hash h ∉ l) (hn : l.length < n) :
    lookup c h dev block n (c.head a).hash_next =
      some (l.find? fun b => (c.head b).dev = dev ∧ (c.head b).block_num = block) := by
  induction l generalizing a n with
  | nil =>
    obtain ⟨n, rfl⟩ : ∃ m, n = m + 1 := ⟨n - 1, by simp at hn; omega⟩
    rw [show (c.head a).hash_next = _ from hl.1, lookup_head rfl]; rfl
  | cons b l ih =>
    obtain ⟨n, rfl⟩ : ∃ m, n = m + 1 := ⟨n - 1, by simp at hn; omega⟩
    obtain ⟨hab, -, hl⟩ := hl
    simp only [List.mem_cons, not_or] at hs
    rw [show (c.head a).hash_next = b from hab]
    by_cases hk : (c.head b).dev = dev ∧ (c.head b).block_num = block
    · rw [lookup_hit (Ne.symm hs.1) hk, List.find?_cons_of_pos _ (by simpa using hk)]
    · rw [lookup_next (Ne.symm hs.1) hk, List.find?_cons_of_neg _ (by simpa using hk)]
      exact ih hl hs.2 (by simp at hn; omega)

/-- The LRU loop walks the ring backwards in order: with more rounds than nodes it returns the
first buffer without a reference, or the ring's head. -/
theorem Links.victim (hl : Links (c.view Head.lru_prev) pv a l .lru) (hs : .lru ∉ l)
    (hn : l.length < n) :
    victim c n (c.head a).lru_prev = some (l.find? fun b => (c.head b).ref_count = 0) := by
  induction l generalizing a n with
  | nil =>
    obtain ⟨n, rfl⟩ : ∃ m, n = m + 1 := ⟨n - 1, by simp at hn; omega⟩
    rw [show (c.head a).lru_prev = _ from hl.1, victim_head rfl]; rfl
  | cons b l ih =>
    obtain ⟨n, rfl⟩ : ∃ m, n = m + 1 := ⟨n - 1, by simp at hn; omega⟩
    obtain ⟨hab, -, hl⟩ := hl
    simp only [List.mem_cons, not_or] at hs
    rw [show (c.head a).lru_prev = b from hab]
    by_cases hk : (c.head b).ref_count = 0
    · rw [victim_free (Ne.symm hs.1) hk, List.find?_cons_of_pos _ (by simpa using hk)]
    · rw [victim_next (Ne.symm hs.1) hk, List.find?_cons_of_neg _ (by simpa using hk)]
      exact ih hl hs.2 (by simp at hn; omega)

end Walks

end Xv6.Bio
