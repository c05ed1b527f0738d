import Mathlib.Tactic

/-! Items held at places. A step drops items, moves one item from a place to another,
or puts fresh items at one place; what holds of all items, and that no item is held
twice, then goes through any run of such steps. -/

namespace Placement

variable {P α β : Type*}

/-- Nothing is held twice, neither at one place nor at two. -/
structure Exclusive (f : P → List α) : Prop where
  nodup : ∀ p, (f p).Nodup
  apart : ∀ p q, p ≠ q → (f p).Disjoint (f q)

/-- How what the places hold may change, with the items that are new. -/
inductive Shift (f : P → List α) (fresh : List α) (g : P → List α) : Prop
  | drop (hsub : ∀ r, (g r).Subperm (f r))
  | move (p q : P) (x : α) (hne : p ≠ q) (hfrom : (x :: g p).Subperm (f p))
      (hto : (g q).Subperm (x :: f q)) (hrest : ∀ r, r ≠ p → r ≠ q → (g r).Subperm (f r))
  | issue (p : P) (hto : (g p).Subperm (fresh ++ f p))
      (hrest : ∀ r, r ≠ p → (g r).Subperm (f r))

theorem nodup_of_subperm {l m : List α} (h : l.Subperm m) (hm : m.Nodup) : l.Nodup := by
  obtain ⟨k, hperm, hsub⟩ := h
  exact hperm.nodup_iff.1 (hsub.nodup hm)

theorem subperm_map (k : α → β) {l m : List α} (h : l.Subperm m) :
    (l.map k).Subperm (m.map k) := by
  obtain ⟨j, hperm, hsub⟩ := h
  exact ⟨j.map k, hperm.map k, hsub.map k⟩

theorem Shift.of_eq {f g : P → List α} {fresh : List α} (h : g = f) : Shift f fresh g :=
  .drop fun r => by rw [h]

/-- Every item comes from some place, or it is new. -/
theorem Shift.mem {f g : P → List α} {fresh : List α} (h : Shift f fresh g) {p : P} {x : α}
    (hx : x ∈ g p) : (∃ q, x ∈ f q) ∨ x ∈ fresh := by
  cases h with
  | drop hsub => exact Or.inl ⟨p, (hsub p).subset hx⟩
  | move p' q y _ hfrom hto hrest =>
    have hy : y ∈ f p' := hfrom.subset List.mem_cons_self
    by_cases hp : p = p'
    · subst hp
      exact Or.inl ⟨p, hfrom.subset (List.mem_cons_of_mem y hx)⟩
    by_cases hq : p = q
    · subst hq
      rcases List.mem_cons.1 (hto.subset hx) with rfl | hx
      · exact Or.inl ⟨p', hy⟩
      · exact Or.inl ⟨p, hx⟩
    · exact Or.inl ⟨p, (hrest p hp hq).subset hx⟩
  | issue p' hto hrest =>
    by_cases hp : p = p'
    · subst hp
      rcases List.mem_append.1 (hto.subset hx) with hx | hx
      · exact Or.inr hx
      · exact Or.inl ⟨p, hx⟩
    · exact Or.inl ⟨p, (hrest p hp).subset hx⟩

/-- A shift of items is a shift of what is read off them. -/
theorem Shift.map {f g : P → List α} {fresh : List α} (k : α → β) (h : Shift f fresh g) :
    Shift (fun p => (f p).map k) (fresh.map k) (fun p => (g p).map k) := by
  cases h with
  | drop hsub => exact .drop fun r => subperm_map k (hsub r)
  | move p q x hne hfrom hto hrest =>
    refine .move p q (k x) hne ?_ ?_ fun r hp hq => subperm_map k (hrest r hp hq)
    · simpa using subperm_map k hfrom
    · simpa using subperm_map k hto
  | issue p hto hrest =>
    refine .issue p ?_ fun r hr => subperm_map k (hrest r hr)
    simpa using subperm_map k hto

theorem Exclusive.of_subperm {f g : P → List α} (h : Exclusive f)
    (hsub : ∀ r, (g r).Subperm (f r)) : Exclusive g where
  nodup p := nodup_of_subperm (hsub p) (h.nodup p)
  apart p q hne _ hp hq := h.apart p q hne ((hsub p).subset hp) ((hsub q).subset hq)

/-- One place may take over items that no other place holds. -/
theorem Exclusive.of_gain {f g : P → List α} (h : Exclusive f) {q : P} (hnodup : (g q).Nodup)
    (hrest : ∀ r, r ≠ q → (g r).Subperm (f r)) (hapart : ∀ x ∈ g q, ∀ r, r ≠ q → x ∉ g r) :
    Exclusive g where
  nodup p := by
    by_cases hp : p = q
    · rwa [hp]
    · exact nodup_of_subperm (hrest p hp) (h.nodup p)
  apart p r hne x hxp hxr := by
    by_cases hp : p = q
    · subst hp
      exact hapart x hxp r hne.symm hxr
    by_cases hr : r = q
    · subst hr
      exact hapart x hxr p hp hxp
    · exact h.apart p r hne ((hrest p hp).subset hxp) ((hrest r hr).subset hxr)

theorem Shift.exclusive {f g : P → List α} {fresh : List α} (h : Shift f fresh g)
    (hf : Exclusive f) (hfresh : fresh.Nodup) (hnew : ∀ x ∈ fresh, ∀ p, x ∉ f p) :
    Exclusive g := by
  cases h with
  | drop hsub => exact hf.of_subperm hsub
  | move p q x hne hfrom hto hrest =>
    have hxp : x ∈ f p := hfrom.subset List.mem_cons_self
    have hnodup := nodup_of_subperm hfrom (hf.nodup p)
    have hleft : ∀ r, r ≠ q → (g r).Subperm (f r) := by
      intro r hr
      by_cases hp : r = p
      · subst hp
        exact List.Subperm.cons_self.trans hfrom
      · exact hrest r hp hr
    have hxq : x ∉ f q := fun hx => hf.apart p q hne hxp hx
    refine hf.of_gain (nodup_of_subperm hto (List.nodup_cons.2 ⟨hxq, hf.nodup q⟩)) hleft ?_
    intro y hy r hr hyr
    rcases List.mem_cons.1 (hto.subset hy) with rfl | hy
    · by_cases hp : r = p
      · subst hp
        exact (List.nodup_cons.1 hnodup).1 hyr
      · exact hf.apart p r (Ne.symm hp) hxp ((hleft r hr).subset hyr)
    · exact hf.apart q r hr.symm hy ((hleft r hr).subset hyr)
  | issue p hto hrest =>
    have happ : (fresh ++ f p).Nodup :=
      hfresh.append (hf.nodup p) fun x hx hxp => hnew x hx p hxp
    refine hf.of_gain (nodup_of_subperm hto happ) hrest ?_
    intro x hx r hr hxr
    have hxf := (hrest r hr).subset hxr
    rcases List.mem_append.1 (hto.subset hx) with hx | hx
    · exact hnew x hx r hxf
    · exact hf.apart p r hr.symm hx hxf

/-- Collected from distinct places, no item comes twice. -/
theorem Exclusive.nodup_flatMap {f : P → List α} (h : Exclusive f) {ps : List P}
    (hps : ps.Nodup) : (ps.flatMap f).Nodup :=
  List.nodup_flatMap.2 ⟨fun p _ => h.nodup p, hps.imp fun {p q} hne => h.apart p q hne⟩

/-! Accounts: what has left the places is kept by the way it left. -/

variable {E : Type*}

/-- Where an item may be: held at a place, or gone by an exit. -/
def ledger (f : P → List α) (gone : E → List α) : P ⊕ E → List α
  | .inl p => f p
  | .inr e => gone e

/-- Every item that was issued is entered exactly once, and nothing else is entered;
items are told apart by `k`. -/
structure Accounts (k : α → β) (f : P → List α) (gone : E → List α) (issued : List α) : Prop where
  nodup : (issued.map k).Nodup
  exclusive : Exclusive fun q => (ledger f gone q).map k
  entered : ∀ x, x ∈ issued ↔ ∃ q, x ∈ ledger f gone q

/-- What leaves the places in a step, and by which exit; every other item stays held. -/
structure Departs (k : α → β) (f : P → List α) (fresh : List α) (out : E → List α)
    (g : P → List α) : Prop where
  exclusive : Exclusive fun e => (out e).map k
  held : ∀ e, ∀ x ∈ out e, ∃ p, x ∈ f p
  left : ∀ e, ∀ x ∈ out e, ∀ p, ∀ y ∈ g p, k y ≠ k x
  kept : ∀ p, ∀ x ∈ f p, (∃ q, x ∈ g q) ∨ ∃ e, x ∈ out e
  taken : ∀ x ∈ fresh, ∃ q, x ∈ g q

namespace Departs

variable {k : α → β} {f g : P → List α} {out : E → List α} {fresh : List α}

/-- Nothing leaves. -/
theorem none (hkept : ∀ p, ∀ x ∈ f p, ∃ q, x ∈ g q) (htaken : ∀ x ∈ fresh, ∃ q, x ∈ g q) :
    Departs k f fresh (fun _ : E => []) g where
  exclusive := ⟨fun _ => List.nodup_nil, fun _ _ _ => by simp⟩
  held := by simp
  left := by simp
  kept p x hx := Or.inl (hkept p x hx)
  taken := htaken

/-- The only item of one place leaves by one exit, and no other does. -/
theorem single (hf : Exclusive fun p => (f p).map k) {e : E} {p : P} {x : α} (hp : f p = [x])
    (hout : out e = [x]) (hothers : ∀ e', e' ≠ e → out e' = [])
    (hfrom : ∀ q, ∀ y ∈ g q, ∃ r, r ≠ p ∧ y ∈ f r)
    (hkept : ∀ q, q ≠ p → ∀ y ∈ f q, ∃ r, y ∈ g r) : Departs k f [] out g := by
  have hmem : ∀ e' y, y ∈ out e' → e' = e ∧ y = x := by
    intro e' y hy
    by_cases he : e' = e
    · subst he
      rw [hout, List.mem_singleton] at hy
      exact ⟨rfl, hy⟩
    · rw [hothers e' he] at hy
      cases hy
  have hx : x ∈ f p := by simp [hp]
  refine ⟨⟨fun e' => ?_, fun e₁ e₂ hne y h₁ h₂ => ?_⟩, fun e' y hy => ?_, fun e' y hy q z hz => ?_,
    fun q y hy => ?_, by simp⟩
  · by_cases he : e' = e
    · subst he
      simp [hout]
    · simp [hothers e' he]
  · obtain ⟨z₁, hz₁, -⟩ := List.mem_map.1 h₁
    obtain ⟨z₂, hz₂, -⟩ := List.mem_map.1 h₂
    exact hne ((hmem e₁ z₁ hz₁).1.trans (hmem e₂ z₂ hz₂).1.symm)
  · obtain ⟨-, rfl⟩ := hmem e' y hy
    exact ⟨p, hx⟩
  · obtain ⟨-, rfl⟩ := hmem e' y hy
    obtain ⟨r, hr, hzr⟩ := hfrom q z hz
    intro heq
    refine hf.apart r p hr (List.mem_map_of_mem hzr) ?_
    rw [heq]
    exact List.mem_map_of_mem hx
  · by_cases hq : q = p
    · subst hq
      rw [hp, List.mem_singleton] at hy
      subst hy
      exact Or.inr ⟨e, by simp [hout]⟩
    · exact Or.inl (hkept q hq y hy)

/-- Some places are emptied, and all that they held leaves by one exit. -/
theorem emptied (hf : Exclusive fun p => (f p).map k) {e : E} {ps : List P} (hps : ps.Nodup)
    (hout : out e = ps.flatMap f) (hothers : ∀ e', e' ≠ e → out e' = [])
    (hempty : ∀ p ∈ ps, g p = []) (hrest : ∀ q, q ∉ ps → g q = f q) : Departs k f [] out g := by
  have hmem : ∀ e' y, y ∈ out e' → e' = e ∧ ∃ p ∈ ps, y ∈ f p := by
    intro e' y hy
    by_cases he : e' = e
    · subst he
      rw [hout, List.mem_flatMap] at hy
      exact ⟨rfl, hy⟩
    · rw [hothers e' he] at hy
      cases hy
  refine ⟨⟨fun e' => ?_, fun e₁ e₂ hne y h₁ h₂ => ?_⟩, fun e' y hy => ?_, fun e' y hy q z hz => ?_,
    fun q y hy => ?_, by simp⟩
  · by_cases he : e' = e
    · subst he
      rw [hout, List.map_flatMap]
      exact hf.nodup_flatMap hps
    · simp [hothers e' he]
  · obtain ⟨z₁, hz₁, -⟩ := List.mem_map.1 h₁
    obtain ⟨z₂, hz₂, -⟩ := List.mem_map.1 h₂
    exact hne ((hmem e₁ z₁ hz₁).1.trans (hmem e₂ z₂ hz₂).1.symm)
  · obtain ⟨-, p, -, hp⟩ := hmem e' y hy
    exact ⟨p, hp⟩
  · obtain ⟨-, p, hp, hyp⟩ := hmem e' y hy
    by_cases hq : q ∈ ps
    · rw [hempty q hq] at hz
      cases hz
    · rw [hrest q hq] at hz
      have hqp : q ≠ p := fun heq => hq (heq ▸ hp)
      intro heq
      refine hf.apart q p hqp (List.mem_map_of_mem hz) ?_
      rw [heq]
      exact List.mem_map_of_mem hyp
  · by_cases hq : q ∈ ps
    · exact Or.inr ⟨e, by rw [hout]; exact List.mem_flatMap.2 ⟨q, hq, hy⟩⟩
    · exact Or.inl ⟨q, by rwa [hrest q hq]⟩

end Departs

namespace Accounts

variable {k : α → β} {f g : P → List α} {gone out : E → List α} {issued fresh : List α}

theorem start : Accounts k (fun _ : P => []) (fun _ : E => []) [] where
  nodup := List.nodup_nil
  exclusive := ⟨fun q => by cases q <;> exact List.nodup_nil, fun p q _ => by cases p <;> simp [ledger]⟩
  entered x := by simp [ledger]

/-- Whether it is held or gone, an item is entered at one place only. -/
theorem once (h : Accounts k f gone issued) {x : α} (hx : x ∈ issued) :
    ∃! q, x ∈ ledger f gone q := by
  obtain ⟨q, hq⟩ := (h.entered x).1 hx
  refine ⟨q, hq, fun r hr => ?_⟩
  by_contra hne
  exact h.exclusive.apart r q hne (List.mem_map_of_mem hr) (List.mem_map_of_mem hq)

/-- An item that was held is told apart from everything that is gone. -/
theorem not_gone (h : Accounts k f gone issued) {p : P} {x : α} (hx : x ∈ f p) (e : E) :
    k x ∉ (gone e).map k :=
  h.exclusive.apart (.inl p) (.inr e) (by simp) (List.mem_map_of_mem hx)

/-- And from everything that is held elsewhere. -/
theorem not_held (h : Accounts k f gone issued) {p q : P} {x : α} (hx : x ∈ f p) (hne : p ≠ q) :
    k x ∉ (f q).map k :=
  h.exclusive.apart (.inl p) (.inl q) (by simpa using hne) (List.mem_map_of_mem hx)

theorem gone_issued (h : Accounts k f gone issued) {e : E} {x : α} (hx : x ∈ gone e) :
    x ∈ issued := (h.entered x).2 ⟨.inr e, hx⟩

theorem held_issued (h : Accounts k f gone issued) {p : P} {x : α} (hx : x ∈ f p) :
    x ∈ issued := (h.entered x).2 ⟨.inl p, hx⟩

/-- The places after a step keep the items apart. -/
theorem shift_exclusive (h : Accounts k f gone issued) (hshift : Shift f fresh g)
    (hnodup : ((issued ++ fresh).map k).Nodup) : Exclusive fun p => (g p).map k := by
  have hf : Exclusive fun p => (f p).map k :=
    ⟨fun p => h.exclusive.nodup (.inl p),
      fun p q hne => h.exclusive.apart (.inl p) (.inl q) (by simpa using hne)⟩
  rw [List.map_append, List.nodup_append'] at hnodup
  obtain ⟨-, hfresh, hdisj⟩ := hnodup
  refine (hshift.map k).exclusive hf hfresh fun y hy p hyp => ?_
  obtain ⟨x, hx, rfl⟩ := List.mem_map.1 hyp
  exact hdisj (List.mem_map_of_mem (h.held_issued hx)) hy

theorem step (h : Accounts k f gone issued) (hshift : Shift f fresh g)
    (hout : Departs k f fresh out g) (hnodup : ((issued ++ fresh).map k).Nodup) :
    Accounts k g (fun e => gone e ++ out e) (issued ++ fresh) := by
  have hg := h.shift_exclusive hshift hnodup
  have hapart : ∀ p e, ∀ y ∈ g p, k y ∉ (gone e ++ out e).map k := by
    intro p e y hy hmem
    rw [List.map_append, List.mem_append] at hmem
    rcases hmem with hgone | hleft
    · rcases hshift.mem hy with ⟨q, hq⟩ | hnew
      · exact h.not_gone hq e hgone
      · obtain ⟨x, hx, heq⟩ := List.mem_map.1 hgone
        rw [List.map_append, List.nodup_append'] at hnodup
        refine hnodup.2.2 (List.mem_map_of_mem (h.gone_issued hx)) ?_
        rw [heq]
        exact List.mem_map_of_mem hnew
    · obtain ⟨x, hx, heq⟩ := List.mem_map.1 hleft
      exact hout.left e x hx p y hy heq.symm
  -- what leaves was held, so it has not left before
  have hfirst : ∀ e e', ∀ x ∈ out e, k x ∉ (gone e').map k := by
    intro e e' x hx
    obtain ⟨p, hp⟩ := hout.held e x hx
    exact h.not_gone hp e'
  refine ⟨hnodup, ⟨fun q => ?_, fun q r hne => ?_⟩, fun x => ?_⟩
  · cases q with
    | inl p => exact hg.nodup p
    | inr e =>
      change ((gone e ++ out e).map k).Nodup
      rw [List.map_append]
      refine (h.exclusive.nodup (.inr e)).append (hout.exclusive.nodup e) fun y hy hy' => ?_
      obtain ⟨x, hx, rfl⟩ := List.mem_map.1 hy'
      exact hfirst e e x hx hy
  · intro y hq hr
    cases q with
    | inl p =>
      cases r with
      | inl p' => exact hg.apart p p' (by simpa using hne) hq hr
      | inr e =>
        obtain ⟨x, hx, rfl⟩ := List.mem_map.1 hq
        exact hapart p e x hx hr
    | inr e =>
      cases r with
      | inl p =>
        obtain ⟨x, hx, rfl⟩ := List.mem_map.1 hr
        exact hapart p e x hx hq
      | inr e' =>
        have hee : e ≠ e' := by simpa using hne
        have hgone := h.exclusive.apart (.inr e) (.inr e') hne
        simp only [ledger, List.map_append, List.mem_append] at hq hr
        rcases hq with hq | hq <;> rcases hr with hr | hr
        · exact hgone hq hr
        · obtain ⟨x, hx, rfl⟩ := List.mem_map.1 hr
          exact hfirst e' e x hx hq
        · obtain ⟨x, hx, rfl⟩ := List.mem_map.1 hq
          exact hfirst e e' x hx hr
        · exact hout.exclusive.apart e e' hee hq hr
  · rw [List.mem_append]
    constructor
    · rintro (hx | hx)
      · obtain ⟨q, hq⟩ := (h.entered x).1 hx
        cases q with
        | inl p =>
          rcases hout.kept p x hq with ⟨q, hq⟩ | ⟨e, he⟩
          · exact ⟨.inl q, hq⟩
          · exact ⟨.inr e, List.mem_append_right _ he⟩
        | inr e => exact ⟨.inr e, List.mem_append_left _ hq⟩
      · obtain ⟨q, hq⟩ := hout.taken x hx
        exact ⟨.inl q, hq⟩
    · rintro ⟨q, hq⟩
      cases q with
      | inl p =>
        rcases hshift.mem hq with ⟨p', hp'⟩ | hnew
        · exact Or.inl (h.held_issued hp')
        · exact Or.inr hnew
      | inr e =>
        rcases List.mem_append.1 hq with hq | hq
        · exact Or.inl (h.gone_issued hq)
        · obtain ⟨p, hp⟩ := hout.held e x hq
          exact Or.inl (h.held_issued hp)

end Accounts

end Placement
