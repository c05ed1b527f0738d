import Mathlib.Tactic

/-! Doubly linked lists in a memory of links. `prev` and `next` are the link fields of
all elements; a list is read off them as a segment between what stands before it and
what stands behind it. -/

namespace Links

variable {R : Type*} {prev next prev' next' : R → Option R}

/-- The elements follow one another both ways, with `p` before the first of them and
`n` behind the last. -/
def Seg (prev next : R → Option R) : Option R → List R → Option R → Prop
  | _, [], _ => True
  | p, x :: l, n => prev x = p ∧ next x = l.head?.or n ∧ Seg prev next (some x) l n

@[simp] theorem seg_nil (p n : Option R) : Seg prev next p [] n := trivial

theorem seg_cons {p n : Option R} {x : R} {l : List R} :
    Seg prev next p (x :: l) n ↔ prev x = p ∧ next x = l.head?.or n ∧ Seg prev next (some x) l n :=
  Iff.rfl

theorem seg_append {p n : Option R} {l₁ l₂ : List R} :
    Seg prev next p (l₁ ++ l₂) n ↔
      Seg prev next p l₁ (l₂.head?.or n) ∧ Seg prev next (l₁.getLast?.or p) l₂ n := by
  induction l₁ generalizing p with
  | nil => simp
  | cons x l₁ ih =>
    have hlast : (x :: l₁).getLast?.or p = l₁.getLast?.or (some x) := by
      rw [List.getLast?_cons]
      cases l₁.getLast? <;> rfl
    rw [List.cons_append, seg_cons, seg_cons, ih, hlast, List.head?_append, Option.or_assoc]
    tauto

/-- A segment reads the links of its own elements only. -/
theorem Seg.congr {p n : Option R} {l : List R} (h : Seg prev next p l n)
    (hprev : ∀ x ∈ l, prev' x = prev x) (hnext : ∀ x ∈ l, next' x = next x) :
    Seg prev' next' p l n := by
  induction l generalizing p with
  | nil => exact trivial
  | cons x l ih =>
    obtain ⟨h₁, h₂, h₃⟩ := h
    refine ⟨?_, ?_, ih h₃ (fun y hy => hprev y (List.mem_cons_of_mem x hy))
      fun y hy => hnext y (List.mem_cons_of_mem x hy)⟩
    · rw [hprev x List.mem_cons_self, h₁]
    · rw [hnext x List.mem_cons_self, h₂]

/-- A whole list, from the element without predecessor to the one without successor. -/
structure Linked (prev next : R → Option R) (l : List R) : Prop where
  seg : Seg prev next none l none
  nodup : l.Nodup

namespace Linked

variable {l : List R} {x : R}

theorem nil : Linked prev next [] := ⟨trivial, List.nodup_nil⟩

theorem single (hprev : prev x = none) (hnext : next x = none) : Linked prev next [x] :=
  ⟨⟨hprev, hnext, trivial⟩, List.nodup_singleton x⟩

theorem congr (h : Linked prev next l) (hprev : ∀ x ∈ l, prev' x = prev x)
    (hnext : ∀ x ∈ l, next' x = next x) : Linked prev' next' l :=
  ⟨h.seg.congr hprev hnext, h.nodup⟩

/-- The neighbours of an element. -/
theorem neighbours {l₁ l₂ : List R} (h : Linked prev next (l₁ ++ x :: l₂)) :
    prev x = l₁.getLast? ∧ next x = l₂.head? := by
  obtain ⟨-, h₁, h₂, -⟩ := seg_append.1 h.seg
  exact ⟨by simpa using h₁, by simpa using h₂⟩

/-- What stands before or behind an element is an element too. -/
theorem prev_mem (h : Linked prev next l) (hx : x ∈ l) {y : R} (hy : prev x = some y) : y ∈ l := by
  obtain ⟨l₁, l₂, rfl⟩ := List.append_of_mem hx
  rw [h.neighbours.1] at hy
  exact List.mem_append_left _ (List.mem_of_getLast? hy)

theorem next_mem (h : Linked prev next l) (hx : x ∈ l) {y : R} (hy : next x = some y) : y ∈ l := by
  obtain ⟨l₁, l₂, rfl⟩ := List.append_of_mem hx
  rw [h.neighbours.2] at hy
  exact List.mem_append_right _ (List.mem_cons_of_mem x (List.mem_of_head? hy))

/-- Only the first element has no predecessor. -/
theorem prev_eq_none (h : Linked prev next l) (hx : x ∈ l) : prev x = none ↔ l.head? = some x := by
  obtain ⟨l₁, l₂, rfl⟩ := List.append_of_mem hx
  rw [h.neighbours.1, List.getLast?_eq_none_iff]
  constructor
  · rintro rfl
    rfl
  · intro hhead
    cases l₁ with
    | nil => rfl
    | cons y l₁ =>
      obtain rfl : y = x := Option.some.inj hhead
      exact absurd (List.mem_append_right l₁ List.mem_cons_self) (List.nodup_cons.1 h.nodup).1

/-- An element without neighbours is alone. -/
theorem alone_iff (h : Linked prev next l) (hx : x ∈ l) :
    prev x = none ∧ next x = none ↔ l = [x] := by
  obtain ⟨l₁, l₂, rfl⟩ := List.append_of_mem hx
  rw [h.neighbours.1, h.neighbours.2, List.getLast?_eq_none_iff, List.head?_eq_none_iff]
  constructor
  · rintro ⟨rfl, rfl⟩
    rfl
  · intro heq
    have hlen := congrArg List.length heq
    simp only [List.length_append, List.length_cons, List.length_nil] at hlen
    exact ⟨List.eq_nil_of_length_eq_zero (by omega), List.eq_nil_of_length_eq_zero (by omega)⟩

end Linked

variable [DecidableEq R]

/-- `a->link = v` where `a` is not NULL. -/
def store (link : R → Option R) : Option R → Option R → R → Option R
  | none, _ => link
  | some a, v => Function.update link a v

theorem store_of_ne {link : R → Option R} {a v : Option R} {x : R} (h : a ≠ some x) :
    store link a v x = link x := by
  cases a with
  | none => rfl
  | some a => exact Function.update_of_ne (fun heq => h (by rw [heq])) ..

/-- What stands before a segment changes. -/
theorem Seg.set_start {p n : Option R} {l : List R} (h : Seg prev next p l n) (hnodup : l.Nodup)
    (q : Option R) : Seg (store prev l.head? q) next q l n := by
  cases l with
  | nil => exact trivial
  | cons x l =>
    obtain ⟨-, h₂, h₃⟩ := h
    obtain ⟨hx, -⟩ := List.nodup_cons.1 hnodup
    refine ⟨Function.update_self .., h₂, h₃.congr (fun y hy => ?_) fun _ _ => rfl⟩
    refine store_of_ne fun heq => hx ?_
    rwa [Option.some.inj heq]

/-- What stands behind a segment changes. -/
theorem Seg.set_end {p n : Option R} {l : List R} (h : Seg prev next p l n) (hnodup : l.Nodup)
    (m : Option R) : Seg prev (store next l.getLast? m) p l m := by
  rcases List.eq_nil_or_concat l with rfl | ⟨l, x, rfl⟩
  · exact trivial
  · rw [List.concat_eq_append] at h hnodup ⊢
    obtain ⟨h₁, h₂, -, -⟩ := seg_append.1 h
    have hx : x ∉ l := by
      rw [List.nodup_append'] at hnodup
      exact fun hmem => hnodup.2.2 hmem (List.mem_singleton_self x)
    rw [List.getLast?_concat]
    refine seg_append.2 ⟨h₁.congr (fun _ _ => rfl) fun y hy => ?_, h₂, Function.update_self .., trivial⟩
    refine store_of_ne fun heq => hx ?_
    rwa [Option.some.inj heq]

namespace Linked

variable {l : List R} {x : R}

/-- A new element before the first one. -/
theorem push_front (h : Linked prev next l) (hx : x ∉ l) :
    Linked (store (Function.update prev x none) l.head? (some x)) (Function.update next x l.head?)
      (x :: l) := by
  have hother : ∀ y ∈ l, y ≠ x := fun y hy heq => hx (heq ▸ hy)
  have hseg : Seg (Function.update prev x none) (Function.update next x l.head?) none l none :=
    h.seg.congr (fun y hy => Function.update_of_ne (hother y hy) ..)
      fun y hy => Function.update_of_ne (hother y hy) ..
  refine ⟨⟨?_, ?_, hseg.set_start h.nodup (some x)⟩, List.nodup_cons.2 ⟨hx, h.nodup⟩⟩
  · rw [store_of_ne fun hhead => hx (List.mem_of_head? hhead), Function.update_self]
  · simp

/-- A new element behind the last one. -/
theorem push_back (h : Linked prev next l) (hx : x ∉ l) :
    Linked (Function.update prev x l.getLast?)
      (store (Function.update next x none) l.getLast? (some x)) (l ++ [x]) := by
  have hother : ∀ y ∈ l, y ≠ x := fun y hy heq => hx (heq ▸ hy)
  have hseg : Seg (Function.update prev x l.getLast?) (Function.update next x none) none l none :=
    h.seg.congr (fun y hy => Function.update_of_ne (hother y hy) ..)
      fun y hy => Function.update_of_ne (hother y hy) ..
  refine ⟨seg_append.2 ⟨hseg.set_end h.nodup (some x), ?_, ?_, trivial⟩, ?_⟩
  · simp
  · rw [store_of_ne fun hlast => hx (List.mem_of_getLast? hlast), Function.update_self]
    rfl
  · exact h.nodup.append (List.nodup_singleton x) (by simpa using hx)

/-- An element is taken out: its neighbours are linked to each other. -/
theorem unlink {l₁ l₂ : List R} (h : Linked prev next (l₁ ++ x :: l₂)) :
    Linked (store prev (next x) (prev x)) (store next (prev x) (next x)) (l₁ ++ l₂) := by
  obtain ⟨hprev, hnext⟩ := h.neighbours
  obtain ⟨hleft, -, -, hright⟩ := seg_append.1 h.seg
  obtain ⟨hnodup₁, hnodup₂, hdisj⟩ := List.nodup_append'.1 h.nodup
  have hnodup₂ := (List.nodup_cons.1 hnodup₂).2
  have hdisj : l₁.Disjoint l₂ := fun y hy hy' => hdisj hy (List.mem_cons_of_mem x hy')
  rw [hprev, hnext]
  refine ⟨seg_append.2 ⟨?_, ?_⟩, hnodup₁.append hnodup₂ hdisj⟩
  · rw [Option.or_none]
    refine (hleft.set_end hnodup₁ l₂.head?).congr (fun y hy => ?_) fun _ _ => rfl
    exact store_of_ne fun hhead => hdisj hy (List.mem_of_head? hhead)
  · rw [Option.or_none]
    refine (hright.set_start hnodup₂ l₁.getLast?).congr (fun _ _ => rfl) fun y hy => ?_
    exact store_of_ne fun hlast => hdisj (List.mem_of_getLast? hlast) hy

theorem erase_split {l₁ l₂ : List R} (h : (l₁ ++ x :: l₂).Nodup) :
    (l₁ ++ x :: l₂).erase x = l₁ ++ l₂ := by
  have hx : x ∉ l₁ := fun hmem => (List.nodup_append'.1 h).2.2 hmem List.mem_cons_self
  rw [List.erase_append_right _ hx, List.erase_cons_head]

theorem erase (h : Linked prev next l) (hx : x ∈ l) :
    Linked (store prev (next x) (prev x)) (store next (prev x) (next x)) (l.erase x) := by
  obtain ⟨l₁, l₂, rfl⟩ := List.append_of_mem hx
  rw [erase_split h.nodup]
  exact h.unlink

theorem head?_erase (h : Linked prev next l) (hx : x ∈ l) :
    (l.erase x).head? = if l.head? = some x then next x else l.head? := by
  obtain ⟨l₁, l₂, rfl⟩ := List.append_of_mem hx
  rw [erase_split h.nodup, h.neighbours.2]
  cases l₁ with
  | nil => simp
  | cons y l₁ =>
    have hne : y ≠ x := by
      rintro rfl
      exact (List.nodup_cons.1 h.nodup).1 (List.mem_append_right l₁ List.mem_cons_self)
    simp [hne]

theorem getLast?_erase (h : Linked prev next l) (hx : x ∈ l) :
    (l.erase x).getLast? = if l.getLast? = some x then prev x else l.getLast? := by
  obtain ⟨l₁, l₂, rfl⟩ := List.append_of_mem hx
  rw [erase_split h.nodup, h.neighbours.1]
  rcases List.eq_nil_or_concat l₂ with rfl | ⟨l₂, y, rfl⟩
  · simp
  · have hne : y ≠ x := by
      rintro rfl
      have hnodup := (List.nodup_append'.1 h.nodup).2.1
      exact (List.nodup_cons.1 hnodup).1 (by simp)
    rw [List.concat_eq_append, ← List.append_assoc, List.getLast?_concat, ← List.cons_append,
      ← List.append_assoc, List.getLast?_concat, if_neg fun heq => hne (Option.some.inj heq)]

end Linked

end Links
