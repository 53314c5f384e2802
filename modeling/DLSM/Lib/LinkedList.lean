import Mathlib

/-! Singly linked lists in a store of next links.  `Seg next p l q` says that from the link `p`,
following `next`, the nodes visited are `l`, and the link after them is `q`; a whole list ends
at the null link `none`.  A segment depends only on the links of the nodes it visits, two whole
lists from one link are the same list, and linking a new node after one of a list puts it there
in the list. -/

namespace LinkedList

variable {ι : Type}

/-- From the link `p`, following `next`, the nodes visited are `l`, and then the link `q`. -/
inductive Seg (next : ι → Option ι) : Option ι → List ι → Option ι → Prop
  | nil (p : Option ι) : Seg next p [] p
  | cons (i : ι) {l : List ι} {q : Option ι} : Seg next (next i) l q → Seg next (some i) (i :: l) q

namespace Seg

variable {next next' : ι → Option ι} {p q r : Option ι} {l l₁ l₂ : List ι}

@[simp] theorem nil_iff : Seg next p [] q ↔ p = q :=
  ⟨fun h => by cases h; rfl, fun h => h ▸ .nil p⟩

theorem cons_iff {i : ι} : Seg next p (i :: l) q ↔ p = some i ∧ Seg next (next i) l q :=
  ⟨fun h => by cases h with | cons _ h => exact ⟨rfl, h⟩, fun ⟨hp, h⟩ => hp ▸ .cons i h⟩

/-- The link into a segment is its first node, or the link after it. -/
theorem start_eq (h : Seg next p l q) : p = l.head?.elim q some := by
  cases h <;> rfl

theorem append (h₁ : Seg next p l₁ q) (h₂ : Seg next q l₂ r) : Seg next p (l₁ ++ l₂) r := by
  induction h₁ with
  | nil => exact h₂
  | cons i _ ih => exact .cons i (ih h₂)

theorem split (h : Seg next p (l₁ ++ l₂) r) : ∃ q, Seg next p l₁ q ∧ Seg next q l₂ r := by
  induction l₁ generalizing p with
  | nil => exact ⟨p, .nil p, h⟩
  | cons i l ih =>
    obtain ⟨rfl, h'⟩ := cons_iff.mp h
    obtain ⟨q, h1, h2⟩ := ih h'
    exact ⟨q, .cons i h1, h2⟩

/-- A segment depends only on the links of the nodes it visits. -/
theorem congr (h : Seg next p l q) (hc : ∀ i ∈ l, next' i = next i) : Seg next' p l q := by
  induction h with
  | nil => exact .nil _
  | cons i _ ih =>
    refine .cons i ?_
    rw [hc i List.mem_cons_self]
    exact ih fun j hj => hc j (List.mem_cons_of_mem i hj)

/-- From one link there is one whole list. -/
theorem unique : ∀ {p : Option ι} {l₁ l₂ : List ι}, Seg next p l₁ none → Seg next p l₂ none →
    l₁ = l₂
  | _, [], [], _, _ => rfl
  | _, [], _ :: _, h₁, h₂ => by
    rw [nil_iff] at h₁
    exact absurd (h₁ ▸ (cons_iff.mp h₂).1) (by simp)
  | _, _ :: _, [], h₁, h₂ => by
    rw [nil_iff] at h₂
    exact absurd (h₂ ▸ (cons_iff.mp h₁).1) (by simp)
  | _, i :: _, j :: _, h₁, h₂ => by
    obtain ⟨hp, h₁⟩ := cons_iff.mp h₁
    obtain ⟨hq, h₂⟩ := cons_iff.mp h₂
    obtain rfl : i = j := Option.some.inj (hp.symm.trans hq)
    rw [unique h₁ h₂]

/-- Two neighbours of a list are linked. -/
theorem next_of_append_cons (h : Seg next p (l₁ ++ l₂) q) {i : ι} :
    ∀ {l₂' : List ι}, l₂ = i :: l₂' → next i = l₂'.head?.elim q some := by
  intro l₂' hl
  subst hl
  obtain ⟨r, -, h2⟩ := split h
  obtain ⟨-, h3⟩ := cons_iff.mp h2
  cases l₂' with
  | nil => simpa using h3
  | cons j l => simpa using (cons_iff.mp h3).1

/-- The link into the nodes after `l₁` is the first of them, or the link after the list. -/
theorem link_of_append (h : Seg next p (l₁ ++ l₂) q) {r : Option ι} (h₁ : Seg next p l₁ r) :
    r = l₂.head?.elim q some := by
  obtain ⟨r', h1, h2⟩ := split h
  have hr : r' = r := by
    clear h h2
    induction h1 with
    | nil => simpa using h₁
    | cons i _ ih => exact ih (cons_iff.mp h₁).2
  subst hr
  cases l₂ with
  | nil => simpa using h2
  | cons j l => simpa using (cons_iff.mp h2).1

variable [DecidableEq ι]

/-- Linking a node `x` that is not in the list after its node `a`: `x` takes `a`'s next link,
and `a` links to `x`. -/
theorem insertAfter {a x : ι} (h : Seg next p (l₁ ++ a :: l₂) q) (hnd : (l₁ ++ a :: l₂).Nodup)
    (hx : x ∉ l₁ ++ a :: l₂) :
    Seg (Function.update (Function.update next x (next a)) a (some x)) p
      (l₁ ++ a :: x :: l₂) q := by
  obtain ⟨r, h1, h2⟩ := split h
  obtain ⟨rfl, h3⟩ := cons_iff.mp h2
  have hxa : x ≠ a := fun e => hx (e ▸ List.mem_append_right l₁ List.mem_cons_self)
  have ha : a ∉ l₁ ++ l₂ := by
    have := (List.nodup_middle.mp hnd)
    exact (List.nodup_cons.mp this).1
  -- off `a` and `x` the links are the old ones
  have hoff : ∀ i ∈ l₁ ++ l₂,
      Function.update (Function.update next x (next a)) a (some x) i = next i := by
    intro i hi
    have hia : i ≠ a := fun e => ha (e ▸ hi)
    have hix : i ≠ x := fun e => hx (e ▸ by simp_all)
    simp [Function.update_of_ne hia, Function.update_of_ne hix]
  refine append (congr h1 fun i hi => hoff i (List.mem_append_left l₂ hi)) (.cons a ?_)
  rw [Function.update_self]
  refine .cons x ?_
  rw [Function.update_of_ne hxa, Function.update_self]
  exact congr h3 fun i hi => hoff i (List.mem_append_right l₁ hi)

end Seg

end LinkedList
